import MemoGraph.Proofs.Cycle.Breaking
import MemoGraph.Proofs.Recipe.Derivation
import MemoGraph.Proofs.Round.Commits
import MemoGraph.Proofs.Round.Justified

/-!
# Verdicts of a first round

In a round over an empty graph every outcome fits its key: a value is the one found by recursion,
and a key that fails has no value by recursion and fails because of nothing but cycles.  A function
that ends with a value derives it out of values that are derived; a function that is blocked
requests a key that has no derivation; and the members of a broken cycle request one another, so
that none of them has a derivation.
-/

set_option autoImplicit false

namespace MemoGraph

variable {D : Domain}

/-! ## Outcomes that fit -/

/-- Nothing but cycles is to blame, and all their members have failed by themselves. -/
structure Failure.OnlyCycles (e : Failure D.Key D.Fault) (shows : D.Key → Outcome D → Prop) :
    Prop where
  /-- There is no declared fault. -/
  fault : e.fault = none
  /-- There is no root cause. -/
  rootCauses : ∀ c, c ∉ e.rootCauses
  /-- There is a cycle. -/
  cycles : e.cycles ≠ []
  /-- Each cycle has members. -/
  inhabited : ∀ c ∈ e.cycles, c.members ≠ []
  /-- The members of the cycles have failed by themselves. -/
  members : ∀ c ∈ e.cycles, ∀ m ∈ c.members, ∃ e', shows m (.failure e') ∧ e'.origin = .own

/-- The outcome fits the key: a value is derived, and a failure is due to cycles alone and stands
for a missing derivation. -/
inductive Outcome.Fits (registry : Registry D) (version : Version) (k : D.Key)
    (shows : D.Key → Outcome D → Prop) : Outcome D → Prop where
  /-- the value that is derived -/
  | value {v : D.Value} : registry.Derives version k v → Fits registry version k shows (.value v)
  /-- a failure in place of a value -/
  | failure {e : Failure D.Key D.Fault} : (∀ v, ¬ registry.Derives version k v) →
      e.OnlyCycles shows → Fits registry version k shows (.failure e)

namespace Failure.OnlyCycles

variable {shows shows' : D.Key → Outcome D → Prop}

theorem mono {e : Failure D.Key D.Fault} (h : e.OnlyCycles shows)
    (hmore : ∀ x o, shows x o → shows' x o) : e.OnlyCycles shows' where
  fault := h.fault
  rootCauses := h.rootCauses
  cycles := h.cycles
  inhabited := h.inhabited
  members c hc m hm := by
    obtain ⟨e', he', hown⟩ := h.members c hc m hm
    exact ⟨e', hmore m _ he', hown⟩

theorem isCycle {e : Failure D.Key D.Fault} (h : e.OnlyCycles shows) : e.isCycle = true := by
  simp [Failure.isCycle, h.fault, h.cycles]

/-- The failure of a key on cycles. -/
theorem ofCycles {e : Failure D.Key D.Fault} {cycles : List (Cycle D.Key)}
    (halike : e.Alike (.ofCycles cycles)) (hne : cycles ≠ [])
    (hinhabited : ∀ c ∈ cycles, c.members ≠ [])
    (h : ∀ c ∈ cycles, ∀ m ∈ c.members, ∃ e', shows m (.failure e') ∧ e'.origin = .own) :
    e.OnlyCycles shows where
  fault := halike.fault
  rootCauses c hc := OrderedSet.not_mem_empty c ((halike.rootCauses c).mp hc)
  cycles := by
    rw [halike.cycles]
    exact hne
  inhabited c hc := by
    rw [halike.cycles] at hc
    exact hinhabited c hc
  members c hc := by
    rw [halike.cycles] at hc
    exact h c hc

/-- The failure of a key that has no outcome yet, for want of others that are due to cycles. -/
theorem ofChildren {k : D.Key} {children : List (Failure D.Key D.Fault)} (hne : children ≠ [])
    (h : ∀ e ∈ children, e.OnlyCycles shows) (hk : ∀ o, ¬ shows k o) :
    (Failure.ofChildren k children).OnlyCycles shows := by
  -- The key is on none of the cycles, since their members have outcomes.
  have hforeign {e : Failure D.Key D.Fault} (he : e ∈ children) {c : Cycle D.Key}
      (hc : c ∈ e.cycles) : k ∉ c.members := by
    intro hmem
    obtain ⟨e', hshows, -⟩ := (h e he).members c hc k hmem
    exact hk _ hshows
  have hmem {c : Cycle D.Key} : c ∈ (Failure.ofChildren k children).cycles ↔
      ∃ e ∈ children, ∃ c' ∈ e.cycles, c'.seenFrom k = c := by
    refine Failure.mem_cyclesBelow.trans ⟨?_, ?_⟩
    · rintro ⟨e, he, c', hc', -, rfl⟩
      exact ⟨e, he, c', hc', rfl⟩
    · rintro ⟨e, he, c', hc', rfl⟩
      exact ⟨e, he, c', hc', hforeign he hc', rfl⟩
  refine ⟨?_, fun c hc => ?_, ?_, fun c hc => ?_, fun c hc m hm => ?_⟩
  · exact List.findSome?_eq_none_iff.mpr fun e he => (h e he).fault
  · obtain ⟨e, he, hc⟩ := List.mem_flatMap.mp (OrderedSet.mem_ofList.mp hc)
    exact (h e he).rootCauses c (OrderedSet.mem_def.mpr hc)
  · obtain ⟨e, he⟩ := List.exists_mem_of_ne_nil children hne
    obtain ⟨c, hc⟩ := List.exists_mem_of_ne_nil e.cycles (h e he).cycles
    exact List.ne_nil_of_mem (hmem.mpr ⟨e, he, c, hc, rfl⟩)
  · obtain ⟨e, he, c', hc', rfl⟩ := hmem.mp hc
    exact (h e he).inhabited c' hc'
  · obtain ⟨e, he, c', hc', rfl⟩ := hmem.mp hc
    exact (h e he).members c' hc' m hm

end Failure.OnlyCycles

namespace Outcome.Fits

variable {registry : Registry D} {version : Version} {k : D.Key}
  {shows shows' : D.Key → Outcome D → Prop} {o : Outcome D}

theorem mono (h : o.Fits registry version k shows) (hmore : ∀ x o, shows x o → shows' x o) :
    o.Fits registry version k shows' := by
  cases h with
  | value hv => exact .value hv
  | failure hnone he => exact .failure hnone (he.mono hmore)

theorem derives {v : D.Value} (h : (Outcome.value v).Fits registry version k shows) :
    registry.Derives version k v := by
  cases h with
  | value hv => exact hv

end Outcome.Fits

namespace Round

variable {s : Setting D} {r r' : Round D} {k : D.Key}

/-! ## Keys that were never checked -/

/-- A key that was not dirty runs its function, and waits for nothing but what that requested. -/
def Unchecked (g : Graph D) (k : D.Key) (t : Task D) : Prop :=
  (g.node k).status ≠ .dirty → t.mode = .rebuild ∧ ∀ d ∈ t.awaited, d ∈ t.requested.keys

theorem taskRule_unchecked (s : Setting D) : TaskRule s (Unchecked (D := D)) where
  frame h hnode hmode hrequested hawaited hclean := by
    rw [hmode, hrequested, hawaited]
    rw [hnode] at hclean
    exact h hclean
  begun g k _ hclean := by
    refine ⟨?_, fun d hd => absurd hd (OrderedSet.not_mem_empty d)⟩
    rw [Task.start, if_neg hclean]
  settle hs _ hk h hclean := by
    rw [(Node.memo_eq_iff.mp (hs.others _ hk)).1] at hclean
    exact h hclean

theorem unchecked_of_reaches {graph : Graph D} (hg : graph.Grounded s.version)
    (hb : graph.Before s.version) {calls : Table D.Key Nat}
    (h : Reaches s (Round.start s graph calls) r) : EachTask Unchecked r := by
  induction h with
  | refl => exact EachTask.start (taskRule_unchecked s) graph calls
  | @tail r r' hr hstep ih =>
      refine EachTask.step (taskRule_unchecked s) ih (tally_of_reaches hr) ?_ ?_ hstep
      · intro k rest t i group waiters seen r₁ _ hc hclean
        rw [hc.reads.node] at hclean
        cases (ih k t hc.task hclean).1.symm.trans hc.mode
      · intro k rest t waiters f inv r₁ _ _ hi hclean
        rw [hi.reads.node] at hclean
        refine ⟨hi.mode, fun d hd => DepGroups.mem_keys_pushAll.mpr ?_⟩
        have hground : Grounded s { r with queue := rest } := { Grounded.of_reaches hg hb hr with }
        have htraced := hground.traced_invoke k f t.scratch
        rw [hi.run] at htraced
        rcases OrderedSet.mem_insertAll.mp hd with hd | hd
        · exact .inl ((ih k t hi.task hclean).2 d hd)
        · exact .inr (htraced.awaited d hd).2

/-! ## Each step keeps outcomes fitting -/

/-- Every outcome that can be read fits its key. -/
def Fitting (s : Setting D) (r : Round D) : Prop :=
  ∀ x o, r.graph.Shows x o → o.Fits s.registry s.version x r.graph.Shows

/-- Values that can be read are derived. -/
theorem Fitting.derives (h : Fitting s r) (d : D.Key) (v : D.Value)
    (hv : r.sight d = some (.value v)) : s.registry.Derives s.version d v :=
  (h d _ (Graph.shows_of_settled hv)).derives

/-- Outcomes fit on if new ones fit and old ones stay. -/
theorem Fitting.extend (h : Fitting s r) (hkept : ∀ x o, r.graph.Shows x o → r'.graph.Shows x o)
    (hnew : ∀ x o, r'.graph.Shows x o →
      r.graph.Shows x o ∨ o.Fits s.registry s.version x r'.graph.Shows) : Fitting s r' := by
  intro x o ho
  rcases hnew x o ho with hold | hfits
  · exact (h x o hold).mono hkept
  · exact hfits

/-- What a function concludes fits. -/
theorem Fitting.concluded (h : Fitting s r) (hg : Grounded s r) (hsure : s.registry.Sure)
    (hk : r.graph.isComplete k = false) {t : Task D} {waiters : OrderedSet D.Key} {f : Function D}
    {ending : Ending D} {inv : Invocation D} {r₁ : Round D}
    (hi : Invoked s r k t waiters f ending inv r₁) {o : Outcome D} (ho : Concludes k inv ending o) :
    o.Fits s.registry s.version k r.graph.Shows := by
  obtain ⟨plan, hplan, -, hfaultless⟩ := hsure k f hi.function
  obtain ⟨hnotes, hallows⟩ := hi.consulted hplan
  have hout := ho.outcome hnotes hallows plan.pending_eq_nil
  cases ho with
  | value _ =>
      exact .value (hsure.acceptsNone.derives_of_consult h.derives hi.function hplan
        (Consultation.upshot_of_value hout.2))
  | fault => exact absurd (Upshot.eq_fault_of_allows hallows) (hfaultless r.sight _)
  | blocked _ _ hfailed =>
      have htraced := hg.traced_invoke k f t.scratch
      rw [hi.run] at htraced
      have hchild {e : Failure D.Key D.Fault} (he : e ∈ inv.failedReads) :
          ∃ d ∈ (plan.consult r.sight).requests, (Outcome.failure e).Fits s.registry s.version d
            r.graph.Shows := by
        obtain ⟨d, ⟨batch, hbatch, hd⟩, hshows⟩ := htraced.failed e (List.mem_append_right _ he)
        rw [hnotes.batches] at hbatch
        exact ⟨d, List.mem_flatten.mpr ⟨batch, hbatch, hd⟩, h d _ hshows⟩
      refine .failure (fun v hv => ?_) (.ofChildren hfailed (fun e he => ?_) fun o ho => ?_)
      · obtain ⟨e, he⟩ := List.exists_mem_of_ne_nil inv.failedReads hfailed
        obtain ⟨d, hd, hfits⟩ := hchild he
        obtain ⟨u, hu⟩ :=
          hsure.acceptsNone.derives_of_request h.derives hi.function hplan hv hd
        cases hfits with
        | failure hnone _ => exact hnone u hu
      · obtain ⟨d, -, hfits⟩ := hchild he
        cases hfits with
        | failure _ hcycles => exact hcycles
      · rw [ho.1] at hk
        cases hk

/-- The members of a cycle that holds up the roots have no derivation, unless one of them was
dirty. -/
theorem Fitting.not_derives (h : Fitting s r) (hnone : s.registry.AcceptsNone)
    (hasked : Asked s r) (hunchecked : EachTask Unchecked r)
    (hclean : ∀ x, r.tasks.contains x = true → (r.graph.node x).status ≠ .dirty)
    {c : Cycle D.Key} (hc : c ∈ r.heldUpBy s) (hk : k ∈ c.members) (v : D.Value) :
    ¬ s.registry.Derives s.version k v := by
  refine hnone.not_derives h.derives (P := fun x => ∃ c ∈ r.heldUpBy s, x ∈ c.members) ?_
    ⟨c, hc, hk⟩
  rintro x ⟨c, hc, hx⟩ f plan hf hplan
  obtain ⟨t, htask⟩ := task_of_heldUpBy hc hx
  obtain ⟨d, hedge⟩ := Cycle.exists_edge_of_mem hx
  obtain ⟨hawaited, -⟩ := awaited_of_edge hc hedge htask
  have hrequested := (hunchecked x t htask (hclean x (contains_of_get? htask))).2 d hawaited
  obtain ⟨batches, hbatches, hprefix⟩ := hasked x t htask f plan hf hplan
  rw [hbatches] at hrequested
  obtain ⟨batch, hbatch, hd⟩ :=
    (DepGroups.mem_keys_pushAll.mp hrequested).resolve_left List.not_mem_nil
  exact ⟨d, List.mem_flatten.mpr ⟨batch, hprefix.subset hbatch, hd⟩, c, hc,
    (Cycle.mem_members_of_edge hedge).2⟩

/-- What the members of broken cycles fail with fits. -/
theorem Fitting.broken (h : Fitting s r) (hnone : s.registry.AcceptsNone)
    (ht : Tally r none 0 []) (hasked : Asked s r) (hunchecked : EachTask Unchecked r)
    (hclean : ∀ x, r.tasks.contains x = true → (r.graph.node x).status ≠ .dirty) :
    Fitting s (r.failMembers s (r.heldUpBy s)) := by
  have hmember {c : Cycle D.Key} (hc : c ∈ r.heldUpBy s) {x : D.Key} (hx : x ∈ c.members) :
      r.graph.isComplete x = false ∧
        ∃ e, (r.failMembers s (r.heldUpBy s)).graph.Shows x (.failure e) ∧
          e.Alike (.ofCycles (cyclesOf (r.heldUpBy s) x)) := by
    obtain ⟨t, htask⟩ := task_of_heldUpBy hc hx
    exact ⟨ht.unfinished x t htask, (failed_of_member ht hc hx htask).1⟩
  have hothers {x : D.Key} (hx : ¬ ∃ c ∈ r.heldUpBy s, x ∈ c.members) {o : Outcome D} :
      (r.failMembers s (r.heldUpBy s)).graph.Shows x o ↔ r.graph.Shows x o :=
    Graph.shows_of_memo_eq (memo_failMembers ht fun c hc hmem => hx ⟨c, hc, hmem⟩)
  refine h.extend (fun x o ho => (hothers ?_).mpr ho) fun x o ho => ?_
  · rintro ⟨c, hc, hx⟩
    exact absurd ho.1 (by simp [(hmember hc hx).1])
  · by_cases hx : ∃ c ∈ r.heldUpBy s, x ∈ c.members
    · right
      obtain ⟨c, hc, hx⟩ := hx
      obtain ⟨-, e, hshows, halike⟩ := hmember hc hx
      obtain rfl := Option.some.inj (hshows.2.symm.trans ho.2)
      refine .failure (h.not_derives hnone hasked hunchecked hclean hc hx)
        (.ofCycles halike (List.ne_nil_of_mem (mem_cyclesOf.mpr ⟨c, hc, hx, rfl⟩)) ?_ ?_)
      · intro c' hc'
        obtain ⟨c₀, -, hx₀, rfl⟩ := mem_cyclesOf.mp hc'
        exact List.ne_nil_of_mem hx₀
      · intro c' hc' m hm
        obtain ⟨c₀, hc₀, -, rfl⟩ := mem_cyclesOf.mp hc'
        obtain ⟨-, e', hshows', halike'⟩ := hmember hc₀ hm
        exact ⟨e', hshows', halike'.origin⟩
    · exact .inl ((hothers hx).mp ho)

/-- The action of a key that holds nothing, and was not dirty, keeps outcomes fitting. -/
theorem Fitting.move (h : Fitting s r) (hg : Grounded s r) (hsure : s.registry.Sure)
    (ht : Tally r none 0 [])
    (hfresh : ∀ x, r.tasks.contains x = true → (r.graph.node x).memo = (Node.fresh : Node D).memo)
    {rest : List D.Key} (hq : r.queue = k :: rest) (hm : Move s { r with queue := rest } k r') :
    Fitting s r' := by
  have hpop : Grounded s { r with queue := rest } := { hg with }
  have hfits : Fitting s { r with queue := rest } := h
  cases leaves_of_move hg ht hq hm with
  | nothing hnode _ =>
      refine h.extend (fun x o => (Graph.shows_congr hnode).mpr) fun x o ho => .inl ?_
      exact (Graph.shows_congr hnode).mp ho
  | confirmed htask hmode _ _ _ =>
      have hdirty := hg.checking k _ _ htask hmode
      rw [(Node.memo_eq_iff.mp (hfresh k (contains_of_get? htask))).1] at hdirty
      cases hdirty
  | @concluded t waiters f ending inv r₁ o how hi ho _ hgraph =>
      have hinc := ht.unfinished k t hi.task
      have hinc₁ : r₁.graph.isComplete k = false := (hi.reads.isComplete k).trans hinc
      have hsettles := Graph.settles_setDeps_publish (c := k) s.version
        (t.requested.pushAll inv.batches) o hinc₁
      rw [← hgraph] at hsettles
      have hkept (x : D.Key) (o : Outcome D) (hx : r.graph.Shows x o) : r'.graph.Shows x o :=
        hsettles.shows hinc₁ ((Graph.shows_congr hi.reads.node).mpr hx)
      refine h.extend hkept fun x o' ho' => ?_
      by_cases hx : x = k
      · -- The key held nothing, so it holds just what was concluded.
        subst hx
        have hnone : (r₁.graph.node x).outcome = none := by
          rw [hi.reads.node]
          exact (Node.memo_eq_iff.mp (hfresh x (contains_of_get? hi.task))).2.1
        have hstored : (r'.graph.node x).outcome = some o := by
          rw [hgraph]
          exact Graph.outcome_setDeps_publish_of_none _ o hnone
        obtain rfl := Option.some.inj (hstored.symm.trans ho'.2)
        exact .inr ((hfits.concluded hpop hsure hinc hi ho).mono hkept)
      · left
        exact (Graph.shows_congr hi.reads.node).mp
          ((Graph.shows_of_memo_eq (hsettles.others x hx)).mp ho')

/-- Throughout a round over an empty graph all outcomes fit, if no function declares faults or is
shown failures. -/
theorem fitting_of_reaches (hsure : s.registry.Sure) (hpos : 0 < s.version)
    {calls : Table D.Key Nat} (h : Reaches s (Round.start s ∅ calls) r) : Fitting s r := by
  have hbefore : (∅ : Graph D).Before s.version := fun _ _ => hpos
  have hempty := Graph.grounded_empty (D := D) s.version
  induction h with
  | refl =>
      intro x o ho
      cases ((Graph.shows_congr node_start).mp ho).1
  | @tail r r' hr hstep ih =>
      have hground := Grounded.of_reaches hempty hbefore hr
      -- Keys under evaluation are as they were in the empty graph.
      have hfresh (x : D.Key) (hx : r.tasks.contains x = true) :
          (r.graph.node x).memo = (Node.fresh : Node D).memo :=
        (Atomic.of_reaches hr).memo_of_task hx
      cases advance_of_step hstep with
      | skipped _ _ => exact ih
      | acted hq hh hm =>
          have htally := tally_of_going hr hh
          exact ih.move hground hsure htally hfresh hq hm
      | broken _ hh _ _ =>
          have htally := tally_of_going hr hh
          refine ih.broken hsure.acceptsNone htally (asked_of_reaches hr)
            (unchecked_of_reaches hempty hbefore hr) fun x hx => ?_
          rw [(Node.memo_eq_iff.mp (hfresh x hx)).1]
          exact fun e => by cases e

end Round

end MemoGraph
