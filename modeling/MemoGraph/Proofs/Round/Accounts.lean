import MemoGraph.Proofs.Round.Checks

/-!
# Accounts through a round

A step of a round either completes nothing, or confirms a key, or completes it with what its
function concluded, or fails the members of cycles.  An account survives the first two without any
help.  The third has to pay for the new outcome out of what the function was shown, and this module
says what that is.
-/

set_option autoImplicit false

namespace MemoGraph

variable {D : Domain}

/-- Outcomes that count as an accounted one are accounted as well. -/
def Account.Stable (A : Account D) : Prop :=
  ∀ {k : D.Key} {deps : DepGroups D.Key} {o o' : Outcome D} {relies : D.Key → Outcome D → Prop},
    o'.same o = true → A.holds k deps o relies → A.holds k deps o' relies

/-- Only failures need an account. -/
def Account.ExemptsValues (A : Account D) : Prop :=
  ∀ {k : D.Key} {deps : DepGroups D.Key} (v : D.Value) {relies : D.Key → Outcome D → Prop},
    A.holds k deps (.value v) relies

namespace Graph

/-- The outcome that can be read of a key. -/
def Shows (g : Graph D) (d : D.Key) (o : Outcome D) : Prop :=
  g.isComplete d = true ∧ (g.node d).outcome = some o

theorem shows_of_settled {g : Graph D} {d : D.Key} {o : Outcome D}
    (h : (g.node d).settled? = some o) : g.Shows d o := by
  unfold Node.settled? at h
  split at h
  · rename_i hc
    exact ⟨hc, h⟩
  · cases h

theorem settled_of_shows {g : Graph D} {d : D.Key} {o : Outcome D} (h : g.Shows d o) :
    (g.node d).settled? = some o := by
  have hc : (g.node d).isComplete = true := h.1
  rw [Node.settled?, if_pos hc, h.2]

theorem failure?_of_shows {g : Graph D} {d : D.Key} {e : Failure D.Key D.Fault}
    (h : g.Shows d (.failure e)) : (g.node d).failure? = some e := by
  rw [Node.failure?, settled_of_shows h]
  rfl

theorem shows_of_memo_eq {g g' : Graph D} {d : D.Key} {o : Outcome D}
    (h : (g'.node d).memo = (g.node d).memo) : g'.Shows d o ↔ g.Shows d o := by
  rw [Shows, Shows, isComplete, isComplete, Node.isComplete_of_memo_eq h,
    (Node.memo_eq_iff.mp h).2.1]

theorem shows_congr {g g' : Graph D} (h : ∀ x, g'.node x = g.node x) {d : D.Key}
    {o : Outcome D} : g'.Shows d o ↔ g.Shows d o :=
  shows_of_memo_eq (congrArg Node.memo (h d))

/-- The completion of a key leaves what can be read. -/
theorem Settles.shows {version : Version} {c : D.Key} {g g' : Graph D}
    (hs : Settles version c g g') (hc : g.isComplete c = false) {d : D.Key} {o : Outcome D}
    (h : g.Shows d o) : g'.Shows d o := by
  refine (shows_of_memo_eq (hs.others d ?_)).mpr h
  rintro rfl
  rw [h.1] at hc
  cases hc

/-- A key is accounted for if what can be read of it is. -/
theorem Shows.accounted {g : Graph D} {A : Account D} {k : D.Key} {o : Outcome D}
    (h : g.Shows k o) (hpaid : A.holds k (g.node k).deps o (g.Relies k)) : g.Accounted A k := by
  intro _ o' ho'
  obtain rfl := Option.some.inj (h.2.symm.trans ho')
  exact hpaid

/-- Publishing an outcome that is paid for out of what can be read. -/
theorem accounted_publish {g : Graph D} {A : Account D} (hA : A.Stable) {k : D.Key}
    {deps : DepGroups D.Key} {o : Outcome D} {version : Version} (hk : g.isComplete k = false)
    (h : A.holds k deps o g.Shows) :
    ((g.setDeps k deps).publish k o version).Accounted A k := by
  intro _ o' ho'
  have hs := settles_setDeps_publish version deps o hk
  rw [deps_setDeps_publish]
  have hrelies : A.holds k deps o (((g.setDeps k deps).publish k o version).Relies k) := by
    refine A.mono (fun d _ od hd => ?_) h
    obtain ⟨hc, ho⟩ := hs.shows hk hd
    exact relies_of_complete hc ho
  rcases outcome_setDeps_publish ho' with rfl | hsame
  · exact hrelies
  · exact hA hsame hrelies

/-- What a dirty key without a changed dependency holds pays its debt out of what can be read. -/
theorem Accounted.of_unchanged {g : Graph D} {A : Account D} {k : D.Key} {o : Outcome D}
    (h : g.Accounted A k) (hk : (g.node k).status = .dirty) (ho : (g.node k).outcome = some o)
    (hdeps : ∀ d ∈ (g.node k).deps.keys, g.Unchanged k d) :
    A.holds k (g.node k).deps o g.Shows := by
  refine A.mono (fun d hd o' hr => ?_) (h (.inr hk) o ho)
  obtain ⟨hc, hle⟩ := hdeps d hd
  exact ⟨hc, hr.1 hle⟩

end Graph

/-- What an invocation notes is true: keys it waits for are incomplete, failures it saw are held by
complete keys, and it requested all of them. -/
structure Traced (g : Graph D) (inv : Invocation D) : Prop where
  /-- Keys without an outcome. -/
  awaited : ∀ d ∈ inv.awaited, g.isComplete d = false ∧ ∃ keys ∈ inv.batches, d ∈ keys
  /-- Failures. -/
  failed : ∀ e ∈ inv.shown ++ inv.failedReads,
    ∃ d, (∃ keys ∈ inv.batches, d ∈ keys) ∧ g.Shows d (.failure e)

theorem Traced.batch {g : Graph D} {inv : Invocation D} (h : Traced g inv) (keys : List D.Key) :
    Traced g { inv with batches := inv.batches ++ [keys] } := by
  have hmore (d : D.Key) (hd : ∃ keys ∈ inv.batches, d ∈ keys) :
      ∃ keys' ∈ inv.batches ++ [keys], d ∈ keys' := by
    obtain ⟨keys', hkeys, hd⟩ := hd
    exact ⟨keys', List.mem_append_left _ hkeys, hd⟩
  refine ⟨fun d hd => ?_, fun e he => ?_⟩
  · exact (h.awaited d hd).imp id (hmore d)
  · obtain ⟨d, hd, hshows⟩ := h.failed e he
    exact ⟨d, hmore d hd, hshows⟩

namespace Round

variable {s : Setting D}

/-- Noting a read keeps the notes true. -/
theorem Grounded.traced_read {r : Round D} (h : Grounded s r) {inv : Invocation D} {k d : D.Key}
    {accepts : D.Fault → Bool} (hinv : Traced r.graph inv) (hd : ∃ keys ∈ inv.batches, d ∈ keys) :
    Traced r.graph (inv.note accepts d (r.readOne s k d).1).2 := by
  cases hi : r.interrupted with
  | true =>
      rw [readOne_of_interrupted k d hi]
      exact ⟨hinv.awaited, hinv.failed⟩
  | false =>
      cases ho : (r.graph.node d).settled? with
      | none =>
          rw [readOne_of_unsettled k d hi ho]
          refine ⟨fun x hx => ?_, hinv.failed⟩
          rcases List.mem_append.mp hx with hx | hx
          · exact hinv.awaited x hx
          · obtain rfl := List.mem_singleton.mp hx
            exact ⟨h.graph.incomplete_of_unsettled ho, hd⟩
      | some o =>
          rw [readOne_of_settled k d hi ho]
          have hshows := Graph.shows_of_settled ho
          cases o with
          | value v => exact hinv
          | failure e =>
              simp only [Reply.ofOutcome_failure, Invocation.note]
              split
              · refine ⟨hinv.awaited, fun e' he' => ?_⟩
                simp only [List.mem_append, List.mem_singleton] at he'
                rcases he' with (he' | rfl) | he'
                · exact hinv.failed e' (List.mem_append_left _ he')
                · exact ⟨d, hd, hshows⟩
                · exact hinv.failed e' (List.mem_append_right _ he')
              · refine ⟨hinv.awaited, fun e' he' => ?_⟩
                simp only [List.mem_append, List.mem_singleton] at he'
                rcases he' with he' | he' | rfl
                · exact hinv.failed e' (List.mem_append_left _ he')
                · exact hinv.failed e' (List.mem_append_right _ he')
                · exact ⟨d, hd, hshows⟩

/-- The notes of a whole invocation are true. -/
theorem Grounded.traced_invoke {r : Round D} (h : Grounded s r) (k : D.Key) (f : Function D)
    (scratch : Option (Scratch D)) : Traced r.graph (r.invoke s k f scratch).2.1 := by
  have hcongr {r₀ : Round D} (hr : Reads r r₀) {inv : Invocation D} :
      Traced r₀.graph inv ↔ Traced r.graph inv := by
    constructor
    · intro ht
      refine ⟨fun d hd => ?_, fun e he => ?_⟩
      · rw [← hr.isComplete]
        exact ht.awaited d hd
      · obtain ⟨d, hd, hshows⟩ := ht.failed e he
        exact ⟨d, hd, (Graph.shows_congr hr.node).mp hshows⟩
    · intro ht
      refine ⟨fun d hd => ?_, fun e he => ?_⟩
      · rw [hr.isComplete]
        exact ht.awaited d hd
      · obtain ⟨d, hd, hshows⟩ := ht.failed e he
        exact ⟨d, hd, (Graph.shows_congr hr.node).mpr hshows⟩
  refine (run_induction (P := fun inv r₀ => Reads r r₀ ∧ Traced r.graph inv)
    (fun keys inv r₀ hp => ⟨hp.1, hp.2.batch keys⟩)
    (fun accepts d inv r₀ hd hp => ⟨hp.1.trans (reads_readOne s r₀ k d),
      (hcongr hp.1).mp ((h.reads hp.1).traced_read ((hcongr hp.1).mpr hp.2) hd)⟩)
    (fun scratch inv r₀ hp => ⟨hp.1, hp.2.awaited, hp.2.failed⟩)
    (fun inv r₀ hp => ⟨hp.1.trans { Reads.refl r₀ with interrupted := fun _ => rfl }, hp.2⟩)
    (f k (r.countCall s k).1) ⟨reads_countCall r, ⟨fun d hd => absurd hd List.not_mem_nil,
      fun e he => absurd he List.not_mem_nil⟩⟩).2

/-- A failure that an invocation saw is held by a key that it requested. -/
theorem Invoked.child {r : Round D} (hg : Grounded s r) {k : D.Key} {t : Task D}
    {waiters : OrderedSet D.Key} {f : Function D} {ending : Ending D} {inv : Invocation D}
    {r₁ : Round D} (hi : Invoked s r k t waiters f ending inv r₁)
    (child : Failure D.Key D.Fault) (hchild : child ∈ inv.shown ++ inv.failedReads) :
    ∃ d ∈ (t.requested.pushAll inv.batches).keys, r₁.graph.Shows d (.failure child) := by
  have htraced := hg.traced_invoke k f t.scratch
  rw [hi.run] at htraced
  obtain ⟨d, hd, hshows⟩ := htraced.failed child hchild
  exact ⟨d, DepGroups.mem_keys_pushAll.mpr (.inr hd),
    (Graph.shows_congr hi.reads.node).mpr hshows⟩

/-- The outcome that an invocation leads to. -/
inductive Concludes (k : D.Key) (inv : Invocation D) : Ending D → Outcome D → Prop where
  /-- a value, if nothing was missing -/
  | value {v : D.Value} : inv.missing = false → Concludes k inv (.value v) (.value v)
  /-- a declared fault -/
  | fault {e : D.Fault} : Concludes k inv (.fault e) (.failure (declaredFailure k e inv))
  /-- the failures of dependencies, if nothing else was missing -/
  | blocked : inv.missing = true → inv.awaited = [] → inv.failedReads ≠ [] →
      Concludes k inv .needsDeps (.failure (.ofChildren k inv.failedReads))

/-- A declared fault is passed on if it was shown, and is the key's own otherwise. -/
theorem declaredFailure_cases (k : D.Key) (fault : D.Fault) (inv : Invocation D) :
    (∃ child ∈ inv.shown, declaredFailure k fault inv = .passedOn k fault child) ∨
      declaredFailure k fault inv = .own k fault := by
  simp only [declaredFailure]
  split
  · rename_i child hfind
    exact .inl ⟨child, List.mem_of_find?_eq_some hfind, rfl⟩
  · exact .inr rfl

/-- A key that expects no signal after its invocation has met no incomplete key. -/
theorem Tally.awaited_eq_nil {r : Round D} {k : D.Key} {n : Nat} {met : List D.Key}
    (h : Tally r (some k) n met) {t : Task D} (ht : r.tasks.get? k = some t)
    (hzero : t.expected + n = 0) (hmet : ∀ d ∈ met, r.graph.isComplete d = false) : met = [] := by
  have howed : t.expected + owed (some k) n k = 0 := by simpa [owed] using hzero
  refine List.eq_nil_iff_forall_not_mem.mpr fun d hd => ?_
  exact h.not_enlisted ht howed d ((h.awaits k t ht d).mpr ⟨.inr ⟨rfl, hd⟩, hmet d hd⟩)

/-- An invocation after which its key expects no signal has met nothing that could still
complete. -/
theorem Invoked.awaited_eq_nil {r : Round D} (hg : Grounded s r) (ht : Tally r none 0 [])
    {k : D.Key} {rest : List D.Key} (hq : r.queue = k :: rest) {t : Task D}
    {waiters : OrderedSet D.Key} {f : Function D} {ending : Ending D} {inv : Invocation D}
    {r₁ : Round D} (hi : Invoked s { r with queue := rest } k t waiters f ending inv r₁)
    (hexpected : t.expected + inv.enlisted = 0) : inv.awaited = [] := by
  have hpop : Grounded s { r with queue := rest } := { hg with }
  have htally := (ht.pop hq hi.task).invoke (s := s) f t.scratch
  have htraced := hpop.traced_invoke k f t.scratch
  rw [hi.run] at htally htraced
  refine htally.awaited_eq_nil hi.kept hexpected fun d hd => ?_
  rw [hi.reads.isComplete]
  exact (htraced.awaited d hd).1

/-- A key that expects no signal after an invocation that wants to be run again is blocked. -/
theorem Invoked.concludes_of_blocked {r : Round D} (hg : Grounded s r) (ht : Tally r none 0 [])
    {k : D.Key} {rest : List D.Key} (hq : r.queue = k :: rest) {t : Task D}
    {waiters : OrderedSet D.Key} {f : Function D} {inv : Invocation D} {r₁ : Round D}
    (hi : Invoked s { r with queue := rest } k t waiters f .needsDeps inv r₁)
    (hmissing : inv.missing = true) (hexpected : t.expected + inv.enlisted = 0)
    (hfailed : inv.failedReads ≠ []) :
    Concludes k inv .needsDeps (.failure (.ofChildren k inv.failedReads)) :=
  .blocked hmissing (hi.awaited_eq_nil hg ht hq hexpected) hfailed

/-! ## What an action leaves -/

/-- What the action of a key leaves in the graph and in the log. -/
inductive Leaves (s : Setting D) (r : Round D) (k : D.Key) (r' : Round D) : Prop where
  /-- no key completes -/
  | nothing : (∀ x, r'.graph.node x = r.graph.node x) →
      (∀ x how, .completed x how ∈ r'.log → .completed x how ∈ r.log) → Leaves s r k r'
  /-- the key is found clean -/
  | confirmed {t : Task D} {i : Nat} : r.tasks.get? k = some t → t.mode = .check i →
      (r.graph.node k).deps.group? i = none → Completes s k .clean r r' →
      r'.graph = r.graph.confirm k s.version → Leaves s r k r'
  /-- the key completes with what its function concludes -/
  | concluded {t : Task D} {waiters : OrderedSet D.Key} {f : Function D} {ending : Ending D}
      {inv : Invocation D} {r₁ : Round D} {o : Outcome D} {how : Completion} :
      Invoked s r k t waiters f ending inv r₁ → Concludes k inv ending o →
      Completes s k how r₁ r' →
      r'.graph = (r₁.graph.setDeps k (t.requested.pushAll inv.batches)).publish k o s.version →
      Leaves s r k r'

theorem leaves_of_move {r r' : Round D} (hg : Grounded s r) (ht : Tally r none 0 []) {k : D.Key}
    {rest : List D.Key} (hq : r.queue = k :: rest) (hm : Move s { r with queue := rest } k r') :
    Leaves s { r with queue := rest } k r' := by
  have hquiet {r₀ : Round D} (hr : Reads { r with queue := rest } r₀)
      (hgraph : r'.graph = r₀.graph) (hlog : r'.log = r₀.log) :
      Leaves s { r with queue := rest } k r' := by
    refine .nothing (fun x => by rw [hgraph, hr.node]) fun x how hx => ?_
    rw [hlog] at hx
    exact (hr.completed x how).mp hx
  cases hm with
  | idle _ => exact hquiet (.refl _) rfl rfl
  | verified htask hmode hend =>
      exact .confirmed htask hmode hend (completes_clean s _ k) (graph_completeClean s _ k)
  | checked hc =>
      obtain ⟨active, queue, he⟩ := concludeGroup_frame _ k _ _ _
      rw [he] at hquiet ⊢
      exact hquiet hc.reads rfl rfl
  | dropped hd => exact hquiet hd.reads rfl rfl
  | lost hl => exact hquiet hl.reads rfl rfl
  | built hi hmissing =>
      obtain ⟨how, -, -, hbuilt⟩ := completes_built s _ k _ _
      exact .concluded hi (.value hmissing) hbuilt (graph_completeBuilt s _ k _ _)
  | failed hi =>
      exact .concluded hi .fault (completes_failed s _ k _ _) (graph_completeFailed s _ k _ _)
  | blocked hi hmissing hexpected _ hfailed =>
      exact .concluded hi (hi.concludes_of_blocked hg ht hq hmissing hexpected hfailed)
        (completes_failed s _ k _ _) (graph_completeFailed s _ k _ _)
  | waiting hi _ _ =>
      obtain ⟨active, queue, he⟩ := resumeOrPark_eq _ k _
      rw [he] at hquiet ⊢
      exact hquiet hi.reads rfl rfl

/-- Since the first round, no key was completed in another way than by a confirmation, except those
in `built`. -/
def OnlyBuilt (built : D.Key → Prop) (r r' : Round D) : Prop :=
  ∀ x how, .completed x how ∈ r'.log → .completed x how ∈ r.log ∨ how = .clean ∨ built x

theorem Completes.onlyBuilt {r r₁ r' : Round D} {k : D.Key} {how : Completion}
    (h : Completes s k how r₁ r') (hr : Reads r r₁) : OnlyBuilt (· = k) r r' := by
  intro x how' hx
  rw [h.log, List.mem_cons] at hx
  rcases hx with hx | hx
  · rw [Event.completed.injEq] at hx
    exact .inr (.inr hx.1)
  · exact .inl ((hr.completed x how').mp hx)

section Step

variable {A A' : Account D} {r r' : Round D}

/-- The action of a key keeps all accounts if what functions conclude is paid for.  The account may
change with the log, as long as it stays the same for keys that were not built. -/
theorem accounted_move (hA : A'.Stable) (h : ∀ x, r.graph.Accounted A x) (hg : Grounded s r)
    (hc : Checks r) (ht : Tally r none 0 []) {k : D.Key} {rest : List D.Key}
    (hq : r.queue = k :: rest) (hm : Move s { r with queue := rest } k r')
    (keep : ∀ built : D.Key → Prop, OnlyBuilt built r r' → ∀ x, ¬ built x →
      ∀ {deps o relies}, A.holds x deps o relies → A'.holds x deps o relies)
    (pays : ∀ t waiters f ending inv r₁ o,
      Invoked s { r with queue := rest } k t waiters f ending inv r₁ → Concludes k inv ending o →
        A'.holds k (t.requested.pushAll inv.batches) o r₁.graph.Shows) :
    ∀ x, r'.graph.Accounted A' x := by
  have hkeep {built : D.Key → Prop} (hb : OnlyBuilt built r r') {g : Graph D} {x : D.Key}
      (hx : ¬ built x) (ha : g.Accounted A x) : g.Accounted A' x :=
    ha.imp fun _ _ _ _ _ => keep built hb x hx
  have hpop : Grounded s { r with queue := rest } := { hg with }
  have hsettle {r₀ : Round D} {how : Completion} (hr : Reads { r with queue := rest } r₀)
      (hs : Graph.Settles s.version k r₀.graph r'.graph) (hcompletes : Completes s k how r₀ r')
      (hk : r'.graph.Accounted A' k) (x : D.Key) : r'.graph.Accounted A' x := by
    by_cases hxk : x = k
    · exact hxk ▸ hk
    · have hb : OnlyBuilt (· = k) r r' := fun y how hy => hcompletes.onlyBuilt hr y how hy
      exact hkeep hb hxk (hs.accounted (hpop.reads hr).before hxk ((h x).of_node hr.node))
  cases leaves_of_move hg ht hq hm with
  | nothing hnode hlog =>
      have hb : OnlyBuilt (fun _ => False) r r' := fun y how hy => .inl (hlog y how hy)
      exact fun x => hkeep hb id ((h x).of_node hnode)
  | confirmed htask hmode hend hcompletes hgraph =>
      have hs : Graph.Settles s.version k r.graph r'.graph := by
        rw [hgraph]
        exact Graph.settles_confirm
      refine hsettle (.refl _) hs hcompletes ?_
      have hb : OnlyBuilt (fun _ => False) r r' := by
        intro y how hy
        rw [hcompletes.log, List.mem_cons, Event.completed.injEq] at hy
        exact hy.symm.imp id fun hy => .inl hy.2
      refine hkeep hb id ?_
      rw [hgraph]
      exact (h k).confirm (hg.checking k _ _ htask hmode) (hc.unchanged htask hmode hend)
  | @concluded t waiters f ending inv r₁ o how hi ho hcompletes hgraph =>
      have hk := ht.unfinished_of_reads hi.reads hi.task
      have hs := Graph.settles_setDeps_publish s.version (t.requested.pushAll inv.batches) o hk
      rw [← hgraph] at hs
      refine hsettle hi.reads hs hcompletes ?_
      rw [hgraph]
      exact Graph.accounted_publish hA hk (pays _ _ _ _ _ _ _ hi ho)

/-- The action of a key stores nothing, or completes the key with an outcome that is paid for out of
what could be read before. -/
theorem paid_of_move (hA : A.Stable)
    (h : ∀ x, (r.graph.node x).status = .dirty → r.graph.Accounted A x) (hg : Grounded s r)
    (hc : Checks r) (ht : Tally r none 0 []) {k : D.Key} {rest : List D.Key}
    (hq : r.queue = k :: rest) (hm : Move s { r with queue := rest } k r')
    (pays : ∀ t waiters f ending inv r₁ o,
      Invoked s { r with queue := rest } k t waiters f ending inv r₁ → Concludes k inv ending o →
        A.holds k (t.requested.pushAll inv.batches) o r₁.graph.Shows) :
    (∀ x, r'.graph.node x = r.graph.node x) ∨
      Graph.Settles s.version k r.graph r'.graph ∧ r.graph.isComplete k = false ∧
        ∀ o, (r'.graph.node k).outcome = some o →
          A.holds k (r'.graph.node k).deps o r.graph.Shows := by
  cases leaves_of_move hg ht hq hm with
  | nothing hnode _ => exact .inl hnode
  | confirmed htask hmode hend _ hgraph =>
      have hdirty := hg.checking k _ _ htask hmode
      rw [hgraph]
      refine .inr ⟨Graph.settles_confirm, ht.unfinished k _ htask, fun o ho => ?_⟩
      rw [Graph.node_confirm, if_pos rfl] at ho ⊢
      exact (h k hdirty).of_unchanged hdirty ho (hc.unchanged htask hmode hend)
  | @concluded t waiters f ending inv r₁ o how hi ho _ hgraph =>
      have hk := ht.unfinished_of_reads hi.reads hi.task
      have hs := Graph.settles_setDeps_publish s.version (t.requested.pushAll inv.batches) o hk
      rw [← hgraph] at hs
      refine .inr ⟨hs.of_node hi.reads.node, ht.unfinished k t hi.task, fun o' ho' => ?_⟩
      have hpaid := A.mono (fun d _ od hd => (Graph.shows_congr hi.reads.node).mp hd)
        (pays _ _ _ _ _ _ _ hi ho)
      rw [hgraph] at ho' ⊢
      rw [Graph.deps_setDeps_publish]
      rcases Graph.outcome_setDeps_publish ho' with rfl | hsame
      · exact hpaid
      · exact hA hsame hpaid

/-- Failing the members of cycles keeps the accounts of all other keys. -/
theorem accounted_failMembers (h : ∀ x, r.graph.Accounted A x) (hg : Grounded s r)
    (ht : Tally r none 0 []) (found : List (Cycle D.Key)) {x : D.Key}
    (hx : ∀ c ∈ found, x ∉ c.members) : (r.failMembers s found).graph.Accounted A x := by
  refine (ht.failMembers_induction _ (P := fun r => Grounded s r ∧ r.graph.Accounted A x)
    ⟨{ hg with }, h x⟩ ?_).2.2
  intro k t r₁ r₂ ⟨hg₁, hx₁⟩ _ hf
  obtain ⟨c, hc, hk⟩ := hf.member
  exact ⟨hf.fails ▸ hg₁.completeFailed hf.incomplete _ _,
    hf.settles.accounted hg₁.before (fun e => hx c hc (e ▸ hk)) hx₁⟩

/-- What functions conclude in a step from `r` is paid for out of what they were shown. -/
def Pays (s : Setting D) (r : Round D) (A : Account D) : Prop :=
  ∀ {k : D.Key} {rest : List D.Key} {t : Task D} {waiters : OrderedSet D.Key} {f : Function D}
    {ending : Ending D} {inv : Invocation D} {r₁ : Round D} {o : Outcome D}, r.queue = k :: rest →
      Invoked s { r with queue := rest } k t waiters f ending inv r₁ → Concludes k inv ending o →
        A.holds k (t.requested.pushAll inv.batches) o r₁.graph.Shows

/-- A step keeps all accounts if what functions conclude is paid for and the members of cycles that
it breaks are accounted for. -/
theorem accounted_step (hA : A.Stable) (h : ∀ x, r.graph.Accounted A x) (hg : Grounded s r)
    (hc : Checks r) (ht : r.halted = true ∨ Tally r none 0 []) (hstep : r.step s = some r')
    (pays : r.halted = false → Pays s r A)
    (members : r.halted = false → r.stopping = false → r.queue = [] → ∀ c ∈ r.heldUpBy s,
      ∀ k ∈ c.members, (r.failMembers s (r.heldUpBy s)).graph.Accounted A k) :
    ∀ x, r'.graph.Accounted A x := by
  cases advance_of_step hstep with
  | skipped _ _ => exact h
  | acted hq hh hm =>
      exact accounted_move hA h hg hc (ht.resolve_left (by simp [hh])) hq hm
        (fun _ _ _ _ _ _ _ hh => hh) fun t waiters f ending inv r₁ o hi ho => pays hh hq hi ho
  | broken hq hh hstop _ =>
      intro x
      by_cases hx : ∃ c ∈ r.heldUpBy s, x ∈ c.members
      · obtain ⟨c, hfound, hmem⟩ := hx
        exact members hh hstop hq c hfound x hmem
      · exact accounted_failMembers h hg (ht.resolve_left (by simp [hh])) _
          fun c hfound hmem => hx ⟨c, hfound, hmem⟩

/-- Only members of the cycles are built when these are broken. -/
theorem onlyBuilt_failMembers (s : Setting D) (r : Round D) (found : List (Cycle D.Key)) :
    OnlyBuilt (fun x => ∃ c ∈ found, x ∈ c.members) r (r.failMembers s found) := by
  refine failMembers_induction _
    (P := fun r₀ => OnlyBuilt (fun x => ∃ c ∈ found, x ∈ c.members) r r₀) ?_ ?_
  · exact fun x how hx => .inl hx
  · intro k t r₀ h₀ hk _ x how hx
    rw [(completes_failed s r₀ k _ _).log, List.mem_cons] at hx
    rcases hx with hx | hx
    · rw [Event.completed.injEq] at hx
      exact .inr (.inr (hx.1 ▸ hk))
    · exact h₀ x how hx

end Step

end Round

end MemoGraph
