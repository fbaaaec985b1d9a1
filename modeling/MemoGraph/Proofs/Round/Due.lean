import MemoGraph.Proofs.Round.Justified

/-!
# What a key is due to store

What a key stores when it completes follows from what it stored before the round and from what its
dependencies store: it is confirmed if none of them changed, and else rebuilt out of their outcomes.
So two graphs that grew out of one agree on every key that is complete in both, as far as they agree
on its dependencies.
-/

set_option autoImplicit false

namespace MemoGraph

variable {D : Domain}

/-- Nodes that store the same, up to the order of root causes and to reverse dependencies. -/
structure Node.Alike (n n' : Node D) : Prop where
  /-- Outcomes are alike, or there are none. -/
  outcome : Option.Rel Outcome.Alike n.outcome n'.outcome
  /-- The same dependencies. -/
  deps : n.deps = n'.deps
  /-- Dated alike. -/
  changedAt : n.changedAt = n'.changedAt
  /-- Evaluated at the same version. -/
  evaluatedAt : n.evaluatedAt = n'.evaluatedAt

namespace Node.Alike

theorem of_memo_eq {n n' : Node D} (h : n.memo = n'.memo) : n.Alike n' := by
  obtain ⟨-, houtcome, hdeps, hchanged, hevaluated⟩ := Node.memo_eq_iff.mp h
  refine ⟨?_, hdeps, hchanged, hevaluated⟩
  rw [houtcome]
  cases n'.outcome with
  | none => exact .none
  | some o => exact .some (.refl o)

theorem congr {n m n' m' : Node D} (h : n.Alike n') (hn : m.memo = n.memo)
    (hn' : m'.memo = n'.memo) : m.Alike m' := by
  obtain ⟨-, ho, hd, hc, he⟩ := Node.memo_eq_iff.mp hn
  obtain ⟨-, ho', hd', hc', he'⟩ := Node.memo_eq_iff.mp hn'
  refine ⟨?_, ?_, ?_, ?_⟩
  · rw [ho, ho']
    exact h.outcome
  · rw [hd, hd', h.deps]
  · rw [hc, hc', h.changedAt]
  · rw [he, he', h.evaluatedAt]

end Node.Alike

namespace Graph

/-! ## What a key is due to store -/

/-- The group at position `i`, recorded in `before`, is the first of the key `k` with a change seen
in `g`; all keys of it are complete there. -/
structure ChangedSince (before g : Graph D) (k : D.Key) (i : Nat) : Prop where
  /-- All of it is complete, and one key of it changed. -/
  changed : ∃ group, (before.node k).deps.group? i = some group ∧
    (∀ d ∈ group, g.isComplete d = true) ∧
      ∃ d ∈ group, (before.node k).evaluatedAt < (g.node d).changedAt
  /-- No key of an earlier group changed. -/
  passed : ∀ j group, j < i → (before.node k).deps.group? j = some group →
    ∀ d ∈ group, g.isComplete d = true ∧ (g.node d).changedAt ≤ (before.node k).evaluatedAt

/-- The key `k`, not complete in `before`, is due to store `n`, considering what is complete in
`g`. -/
inductive Due (registry : Registry D) (version : Version) (before g : Graph D) (k : D.Key)
    (n : Node D) : Prop where
  /-- it is confirmed, since no dependency changed -/
  | confirmed : (before.node k).status = .dirty →
      (∀ d ∈ (before.node k).deps.keys,
        g.isComplete d = true ∧ (g.node d).changedAt ≤ (before.node k).evaluatedAt) →
      n.memo = ((before.node k).confirm version).memo → Due registry version before g k n
  /-- it is rebuilt; if it was dirty, some dependency changed -/
  | rebuilt {o : Outcome D} : before.isComplete k = false →
      ((before.node k).status = .dirty → ∃ i, before.ChangedSince g k i) →
      Justified registry k n.deps o g.Shows →
      n.memo = ({ (before.node k).publish o version with deps := n.deps } : Node D).memo →
      Due registry version before g k n

variable {registry : Registry D} {version : Version} {before g g' goal : Graph D} {k : D.Key}
  {n n' : Node D}

/-- Complete keys store what they stored. -/
def Keeps (g g' : Graph D) : Prop :=
  ∀ d, g.isComplete d = true → (g'.node d).memo = (g.node d).memo

theorem Keeps.isComplete (h : g.Keeps g') {d : D.Key} (hd : g.isComplete d = true) :
    g'.isComplete d = true :=
  (Node.isComplete_of_memo_eq (h d hd)).trans hd

theorem Keeps.changedAt (h : g.Keeps g') {d : D.Key} (hd : g.isComplete d = true) :
    (g'.node d).changedAt = (g.node d).changedAt :=
  (Node.memo_eq_iff.mp (h d hd)).2.2.2.1

theorem ChangedSince.mono (hkeeps : g.Keeps g') {i : Nat} (h : before.ChangedSince g k i) :
    before.ChangedSince g' k i := by
  constructor
  · obtain ⟨group, hgroup, hall, d, hd, hlt⟩ := h.changed
    refine ⟨group, hgroup, fun d hd => hkeeps.isComplete (hall d hd), d, hd, ?_⟩
    rw [hkeeps.changedAt (hall d hd)]
    exact hlt
  · intro j group hj hgroup d hd
    obtain ⟨hc, hle⟩ := h.passed j group hj hgroup d hd
    rw [hkeeps.changedAt hc]
    exact ⟨hkeeps.isComplete hc, hle⟩

/-- What a key is due to store stays due while more keys complete. -/
theorem Due.mono (hkeeps : g.Keeps g') (h : Due registry version before g k n)
    (hn : n'.memo = n.memo) : Due registry version before g' k n' := by
  have hdeps := (Node.memo_eq_iff.mp hn).2.2.1
  cases h with
  | confirmed hdirty hall hmemo =>
      refine .confirmed hdirty (fun d hd => ?_) (hn.trans hmemo)
      obtain ⟨hc, hle⟩ := hall d hd
      rw [hkeeps.changedAt hc]
      exact ⟨hkeeps.isComplete hc, hle⟩
  | @rebuilt o hinc hreason hjust hmemo =>
      refine .rebuilt hinc (fun hd => ?_) (o := o) ?_ (by rw [hn, hmemo, hdeps])
      · obtain ⟨i, hi⟩ := hreason hd
        exact ⟨i, hi.mono hkeeps⟩
      · rw [hdeps]
        obtain ⟨hf, hplan, hlook, hpending, hbatches, hout, hsame⟩ := hjust
        refine .intro hf hplan (fun d hd => ?_) hpending hbatches hout hsame
        obtain ⟨od, hod, hshows⟩ := hlook d hd
        have hmemo := hkeeps d hshows.1
        exact ⟨od, hod, hkeeps.isComplete hshows.1,
          (Node.memo_eq_iff.mp hmemo).2.1.trans hshows.2⟩

/-- What is complete in `g` is complete in `goal`, and stores the same there. -/
def Agree (g goal : Graph D) : Prop :=
  ∀ d, g.isComplete d = true → goal.isComplete d = true ∧ (g.node d).Alike (goal.node d)

theorem Agree.sight (h : g.Agree goal) : Sight.Agrees g.sight goal.sight := by
  intro d o o' ho ho'
  have hshows := shows_of_settled ho
  have hout := (h d hshows.1).2.outcome
  rw [hshows.2, (shows_of_settled ho').2] at hout
  cases hout with
  | some halike => exact halike

/-- A key that is confirmed considering `g` is not rebuilt considering `goal`. -/
theorem ChangedSince.not_unchanged (hagree : g.Agree goal) {i : Nat}
    (h : before.ChangedSince goal k i) (hall : ∀ d ∈ (before.node k).deps.keys,
      g.isComplete d = true ∧ (g.node d).changedAt ≤ (before.node k).evaluatedAt) : False := by
  obtain ⟨group, hgroup, -, d, hd, hlt⟩ := h.changed
  obtain ⟨hc, hle⟩ := hall d (List.mem_flatten_of_mem (List.mem_of_getElem? hgroup) hd)
  rw [← (hagree d hc).2.changedAt] at hlt
  exact Nat.not_lt_of_le hle hlt

/-- Publishing outcomes that are alike. -/
theorem publish_alike (hD : D.Exact) {o o' : Outcome D} (h : o.Alike o') (n : Node D)
    (version : Version) (deps : DepGroups D.Key) :
    ({ n.publish o version with deps := deps } : Node D).Alike
      { n.publish o' version with deps := deps } := by
  have hholds : n.holds o = n.holds o' := by
    unfold Node.holds
    cases n.outcome with
    | none => rfl
    | some old =>
        rw [Bool.eq_iff_iff, Outcome.same_iff_alike hD, Outcome.same_iff_alike hD]
        exact ⟨fun ha => ha.trans h, fun ha => ha.trans h.symm⟩
  refine ⟨?_, rfl, ?_, rfl⟩
  · simp only [Node.publish, hholds]
    split
    · cases n.outcome with
      | none => exact .none
      | some o => exact .some (.refl o)
    · exact .some h
  · simp only [Node.publish, hholds]

/-- Publishing depends on what a node stores only. -/
theorem memo_publish_congr {n m : Node D} (h : n.memo = m.memo) (o : Outcome D)
    (version : Version) (deps : DepGroups D.Key) :
    ({ n.publish o version with deps := deps } : Node D).memo =
      ({ m.publish o version with deps := deps } : Node D).memo := by
  obtain ⟨-, hout, -, hchanged, -⟩ := Node.memo_eq_iff.mp h
  have hholds : n.holds o = m.holds o := by
    unfold Node.holds
    rw [hout]
  refine Node.memo_eq_iff.mpr ⟨rfl, ?_, rfl, ?_, rfl⟩
  · simp only [Node.publish, hholds, hout]
  · simp only [Node.publish, hholds, hchanged]

/-- Considering complete keys that agree, a key is due to store the same. -/
theorem Due.alike (hD : D.Exact) (hagree : g.Agree goal)
    (h : Due registry version before g k n) (h' : Due registry version before goal k n') :
    n.Alike n' := by
  cases h with
  | confirmed hdirty hall hmemo =>
      cases h' with
      | confirmed _ _ hmemo' => exact .of_memo_eq (hmemo.trans hmemo'.symm)
      | rebuilt _ hreason _ _ =>
          obtain ⟨i, hi⟩ := hreason hdirty
          exact (hi.not_unchanged hagree hall).elim
  | @rebuilt o _ hreason hjust hmemo =>
      cases h' with
      | confirmed hdirty hall _ =>
          obtain ⟨i, hi⟩ := hreason hdirty
          obtain ⟨group, hgroup, hcomplete, d, hd, hlt⟩ := hi.changed
          obtain ⟨-, hle⟩ := hall d (List.mem_flatten_of_mem (List.mem_of_getElem? hgroup) hd)
          rw [(hagree d (hcomplete d hd)).2.changedAt] at hlt
          exact absurd hlt (Nat.not_lt_of_le hle)
      | @rebuilt o' _ _ hjust' hmemo' =>
          obtain ⟨f, plan, o₁, hf, hplan, hpending, hbatches, hout, hsame⟩ :=
            consult_of_justified hjust
          obtain ⟨f', plan', o₁', hf', hplan', hpending', hbatches', hout', hsame'⟩ :=
            consult_of_justified hjust'
          obtain rfl := Option.some.inj (hf.symm.trans hf')
          rw [(hplan' 0).consult_eq (hplan 0)] at hpending' hbatches' hout'
          have halike := plan.alike_of_agrees hagree.sight hpending hpending'
          obtain ⟨o₂, ho₂, ho⟩ := halike.outcome hout
          obtain rfl := Option.some.inj (ho₂.symm.trans hout')
          have hoo : o.Alike o' := (((Outcome.same_iff_alike hD).mp hsame).trans ho).trans
            ((Outcome.same_iff_alike hD).mp hsame').symm
          have hdeps : n.deps = n'.deps := by rw [hbatches, hbatches', halike.batches]
          rw [hdeps] at hmemo
          exact (publish_alike hD hoo (before.node k) version n'.deps).congr hmemo hmemo'

theorem Due.incomplete (h : Due registry version before g k n) : before.isComplete k = false := by
  cases h with
  | confirmed hdirty _ _ => rw [isComplete, Node.isComplete, hdirty]; rfl
  | rebuilt hinc _ _ _ => exact hinc

/-! ## What a key is due to read -/

theorem Due.isComplete_dep (h : Due registry version before g k n) {d : D.Key}
    (hd : d ∈ n.deps.keys) : g.isComplete d = true := by
  cases h with
  | confirmed _ hall hmemo =>
      rw [(Node.memo_eq_iff.mp hmemo).2.2.1] at hd
      exact (hall d hd).1
  | rebuilt _ _ hjust _ =>
      obtain ⟨_, hshows⟩ := hjust.shows hd
      exact hshows.1

/-- A recorded group is complete if all groups before it were found unchanged. -/
theorem Due.isComplete_group (h : Due registry version before goal k n) (hagree : g.Agree goal)
    (hdirty : (before.node k).status = .dirty) {i : Nat} {group : List D.Key}
    (hgroup : (before.node k).deps.group? i = some group)
    (hpassed : ∀ j group, j < i → (before.node k).deps.group? j = some group → ∀ d ∈ group,
      g.isComplete d = true ∧ (g.node d).changedAt ≤ (before.node k).evaluatedAt)
    {d : D.Key} (hd : d ∈ group) : goal.isComplete d = true := by
  cases h with
  | confirmed _ hall _ =>
      exact (hall d (List.mem_flatten_of_mem (List.mem_of_getElem? hgroup) hd)).1
  | rebuilt _ hreason _ _ =>
      obtain ⟨j, hj⟩ := hreason hdirty
      obtain ⟨group', hgroup', hall, c, hc, hlt⟩ := hj.changed
      rcases Nat.lt_trichotomy i j with hij | rfl | hij
      · exact (hj.passed i group hij hgroup d hd).1
      · obtain rfl := Option.some.inj (hgroup.symm.trans hgroup')
        exact hall d hd
      · -- The changed group would have been found unchanged.
        obtain ⟨hcomplete, hle⟩ := hpassed j group' hij hgroup' c hc
        rw [(hagree c hcomplete).2.changedAt] at hle
        exact absurd hlt (Nat.not_lt_of_le hle)

/-- What the function of a key requests considering fewer complete keys is among its
dependencies, unless it is confirmed. -/
theorem Due.mem_deps_of_consult (h : Due registry version before goal k n)
    (hagree : g.Agree goal) (hchanged : (before.node k).status = .dirty →
      ∃ d ∈ (before.node k).deps.keys,
        g.isComplete d = true ∧ (before.node k).evaluatedAt < (g.node d).changedAt)
    {f : Function D} {plan : Plan D} (hf : registry.find? k = some f) (hplan : f.Follows k plan)
    {batch : List D.Key} (hbatch : batch ∈ (plan.consult g.sight).batches) {d : D.Key}
    (hd : d ∈ batch) : d ∈ n.deps.keys := by
  cases h with
  | confirmed hdirty hall _ =>
      obtain ⟨c, hc, hcomplete, hlt⟩ := hchanged hdirty
      rw [(hagree c hcomplete).2.changedAt] at hlt
      exact absurd hlt (Nat.not_lt_of_le (hall c hc).2)
  | rebuilt _ _ hjust _ =>
      obtain ⟨f', plan', o, hf', hplan', hpending, hdeps, -, -⟩ := consult_of_justified hjust
      obtain rfl := Option.some.inj (hf.symm.trans hf')
      rw [(hplan' 0).consult_eq (hplan 0)] at hpending hdeps
      have hprefix := plan.prefix_of_agrees hagree.sight hpending
      rw [hdeps]
      exact DepGroups.mem_keys_pushAll.mpr (.inr ⟨batch, hprefix.subset hbatch, hd⟩)

/-! ## What a round has settled -/

/-- Every key that is complete in `goal` stores what it stored before, if it was complete already,
or else what it was due to store. -/
def Resolved (registry : Registry D) (version : Version) (before goal : Graph D) : Prop :=
  ∀ k, goal.isComplete k = true →
    before.isComplete k = true ∧ (goal.node k).memo = (before.node k).memo ∨
      Due registry version before goal k (goal.node k)

theorem Resolved.due (h : Resolved registry version before goal) (hk : before.isComplete k = false)
    (hgoal : goal.isComplete k = true) : Due registry version before goal k (goal.node k) := by
  refine (h k hgoal).resolve_left fun hkept => ?_
  rw [hk] at hkept
  exact Bool.false_ne_true hkept.1

/-- A key that did not change since a check began stores the outcome that it stored before. -/
theorem Resolved.outcome_of_unchanged (h : Resolved registry version before goal)
    (hb : before.Before version) (hk : before.isComplete k = false) {d : D.Key}
    (hd : goal.isComplete d = true) (hle : (goal.node d).changedAt ≤ (before.node k).evaluatedAt) :
    (goal.node d).outcome = (before.node d).outcome ∧
      (goal.node d).changedAt = (before.node d).changedAt := by
  rcases h d hd with ⟨-, hmemo⟩ | hdue
  · obtain ⟨-, hout, -, hchanged, -⟩ := Node.memo_eq_iff.mp hmemo
    exact ⟨hout, hchanged⟩
  · cases hdue with
    | confirmed _ _ hmemo =>
        obtain ⟨-, hout, -, hchanged, -⟩ := Node.memo_eq_iff.mp hmemo
        exact ⟨hout, hchanged⟩
    | @rebuilt o _ _ _ hmemo =>
        obtain ⟨-, hout, -, hchanged, -⟩ := Node.memo_eq_iff.mp hmemo
        simp only [Node.publish] at hout hchanged
        split at hchanged
        · rename_i hholds
          rw [if_pos hholds] at hout
          exact ⟨hout, hchanged⟩
        · -- An outcome that is new is dated after the check began.
          rw [hchanged] at hle
          exact absurd (hb k hk) (Nat.not_lt_of_le hle)

/-- A recorded group is among the dependencies of a key, if all groups before it were found
unchanged. -/
theorem Resolved.mem_deps_of_group (h : Resolved registry version before goal)
    (hb : before.Before version) {exempt : Exempt D}
    (hexempt : ∀ {deps o}, exempt k deps o → deps = ∅)
    (hall : before.Accounted (justification registry exempt) k)
    (hfilled : before.Filled) (hgoal : goal.isComplete k = true) (hagree : g.Agree goal)
    (hdirty : (before.node k).status = .dirty) {i : Nat} {group : List D.Key}
    (hgroup : (before.node k).deps.group? i = some group)
    (hpassed : ∀ j group, j < i → (before.node k).deps.group? j = some group → ∀ d ∈ group,
      g.isComplete d = true ∧ (g.node d).changedAt ≤ (before.node k).evaluatedAt)
    {d : D.Key} (hd : d ∈ group) : d ∈ (goal.node k).deps.keys := by
  have hinc : before.isComplete k = false := by
    rw [isComplete, Node.isComplete, hdirty]
    rfl
  cases h.due hinc hgoal with
  | confirmed _ _ hmemo =>
      rw [(Node.memo_eq_iff.mp hmemo).2.2.1]
      exact List.mem_flatten_of_mem (List.mem_of_getElem? hgroup) hd
  | rebuilt _ _ hjust _ =>
      obtain ⟨f, plan, -, hf, hplan, -, hdeps, -⟩ := consult_of_justified hjust
      obtain ⟨old, hold⟩ := Option.isSome_iff_exists.mp (hfilled k (by rw [hdirty]; simp))
      rcases hall (.inr hdirty) old hold with hex |
        @⟨f', plan', look, _, hf', hplan', hlook, -, hdeps', -, -⟩
      · rw [hexempt hex] at hgroup
        cases hgroup
      · obtain rfl := Option.some.inj (hf'.symm.trans hf)
        rw [(hplan' 0).consult_eq (hplan 0)] at hdeps'
        -- The function sees what it saw when the groups were recorded.
        have hsame (j : Nat) (group' : List D.Key) (hj : j < i)
            (hgroup' : (before.node k).deps.group? j = some group') (x : D.Key) (hx : x ∈ group') :
            goal.sight x = look x := by
          obtain ⟨hcomplete, hle⟩ := hpassed j group' hj hgroup' x hx
          obtain ⟨hshown, halike⟩ := hagree x hcomplete
          rw [halike.changedAt] at hle
          obtain ⟨hout, hchanged⟩ := h.outcome_of_unchanged hb hinc hshown hle
          obtain ⟨ox, hox, hrelies⟩ :=
            hlook x (List.mem_flatten_of_mem (List.mem_of_getElem? hgroup') hx)
          rw [hchanged] at hle
          exact (settled_of_shows ⟨hshown, hout.trans (hrelies.1 hle)⟩).trans hox.symm
        rw [hdeps'] at hgroup hsame
        obtain ⟨batch, hbatch, hmem⟩ := plan.mem_batches_of_group (Nat.zero_le i) hgroup hsame hd
        rw [hdeps]
        exact DepGroups.mem_keys_pushAll.mpr (.inr ⟨batch, hbatch, hmem⟩)

theorem Resolved.of_node (h : Resolved registry version before g)
    (hnode : ∀ x, g'.node x = g.node x) : Resolved registry version before g' := by
  intro k hk
  rw [isComplete, hnode] at hk
  rcases h k hk with ⟨hb, hmemo⟩ | hdue
  · exact .inl ⟨hb, by rw [hnode, hmemo]⟩
  · exact .inr (hdue.mono (fun d _ => by rw [hnode]) (by rw [hnode]))

theorem Settles.keeps (h : Settles version k g g') (hk : g.isComplete k = false) :
    g.Keeps g' := by
  intro d hd
  refine h.others d ?_
  rintro rfl
  rw [hk] at hd
  cases hd

/-- One more key is settled. -/
theorem Resolved.settle (h : Resolved registry version before g) (hs : Settles version k g g')
    (hk : g.isComplete k = false) (hdue : Due registry version before g k (g'.node k)) :
    Resolved registry version before g' := by
  intro x hx
  by_cases hxk : x = k
  · subst hxk
    exact .inr (hdue.mono (hs.keeps hk) rfl)
  · have hmemo := hs.others x hxk
    rw [hs.isComplete_of_ne hxk] at hx
    refine (h x hx).imp (fun ⟨hb, hkept⟩ => ⟨hb, hmemo.trans hkept⟩) fun hdue => ?_
    exact hdue.mono (hs.keeps hk) hmemo

theorem Agree.of_node (h : g.Agree goal) (hnode : ∀ x, g'.node x = g.node x) : g'.Agree goal := by
  intro d hd
  rw [isComplete, hnode] at hd
  rw [hnode]
  exact h d hd

theorem Agree.settle (h : g.Agree goal) (hs : Settles version k g g')
    (hk : goal.isComplete k = true) (halike : (g'.node k).Alike (goal.node k)) :
    g'.Agree goal := by
  intro d hd
  by_cases hdk : d = k
  · subst hdk
    exact ⟨hk, halike⟩
  · rw [hs.isComplete_of_ne hdk] at hd
    exact ⟨(h d hd).1, (h d hd).2.congr (hs.others d hdk) rfl⟩

end Graph

end MemoGraph
