import MemoGraph.Proofs.Round.Course

/-!
# What a round commits

A key is committed when it completes, whether it was built, failed or was verified.  In every state
of a round each key was committed at most once, and what is stored of a key that was not committed
is what was stored before the round.  So a round can be given up anywhere: dropping its tasks leaves
the graph as if the keys it did not commit had never come under evaluation.
-/

set_option autoImplicit false

namespace MemoGraph

variable {D : Domain}

deriving instance DecidableEq for Event

/-- Whether an event says that the key completed. -/
def Event.commits (k : D.Key) : Event D → Bool
  | .completed x _ => decide (x = k)
  | _ => false

/-- The key completed, according to some events. -/
def Committed (events : List (Event D)) (k : D.Key) : Prop := ∃ how, .completed k how ∈ events

theorem committed_cons_completed {events : List (Event D)} {k x : D.Key} {how : Completion} :
    Committed (.completed k how :: events) x ↔ x = k ∨ Committed events x := by
  constructor
  · rintro ⟨how', hx⟩
    rcases List.mem_cons.mp hx with hx | hx
    · exact .inl (Event.completed.inj hx).1
    · exact .inr ⟨how', hx⟩
  · rintro (rfl | ⟨how', hx⟩)
    · exact ⟨how, List.mem_cons_self⟩
    · exact ⟨how', List.mem_cons_of_mem _ hx⟩

theorem any_commits_iff {events : List (Event D)} {k : D.Key} :
    events.any (Event.commits k) = true ↔ Committed events k := by
  rw [List.any_eq_true]
  constructor
  · rintro ⟨e, he, hk⟩
    cases e with
    | completed x how =>
        obtain rfl : x = k := of_decide_eq_true hk
        exact ⟨how, he⟩
    | enqueued x => cases hk
    | called x => cases hk
  · rintro ⟨how, hk⟩
    exact ⟨_, hk, decide_eq_true rfl⟩

instance (events : List (Event D)) (k : D.Key) : Decidable (Committed events k) :=
  decidable_of_iff _ any_commits_iff

theorem countP_commits_eq_zero {events : List (Event D)} {k : D.Key} (h : ¬ Committed events k) :
    events.countP (Event.commits k) = 0 :=
  List.countP_eq_zero.mpr fun e he hk => h (any_commits_iff.mp (List.any_eq_true.mpr ⟨e, he, hk⟩))

namespace Round

variable {s : Setting D} {r r' : Round D}

/-! ## Preparing commits nothing -/

/-- Completions are not among what is told while preparing. -/
theorem Prepares.completed {calls : D.Key → Prop} (h : Prepares calls r r') {x : D.Key}
    {how : Completion} : .completed x how ∈ r'.log ↔ .completed x how ∈ r.log := by
  obtain ⟨news, hlog, hnews⟩ := h.told
  rw [hlog, List.mem_append]
  exact ⟨fun hx => hx.resolve_left fun hx => hnews _ hx, .inr⟩

theorem Prepares.committed {calls : D.Key → Prop} (h : Prepares calls r r') {x : D.Key} :
    Committed r'.log x ↔ Committed r.log x :=
  exists_congr fun _ => h.completed

theorem Prepares.countP_commits {calls : D.Key → Prop} (h : Prepares calls r r') (x : D.Key) :
    r'.log.countP (Event.commits x) = r.log.countP (Event.commits x) := by
  obtain ⟨news, hlog, hnews⟩ := h.told
  have hnone : ¬ Committed news x := fun ⟨_, hx⟩ => hnews _ hx
  rw [hlog, List.countP_append, countP_commits_eq_zero hnone, Nat.zero_add]

theorem Settled.committed {k : D.Key} {how : Completion} (h : Settled s k how r r') {x : D.Key} :
    Committed r'.log x ↔ x = k ∨ Committed r.log x := by
  rw [h.completes.log]
  exact committed_cons_completed

/-- The tasks that are left after a completion. -/
theorem Settled.contains_task {k : D.Key} {how : Completion} (h : Settled s k how r r')
    {x : D.Key} (hx : r'.tasks.contains x = true) : x ≠ k ∧ r.tasks.contains x = true := by
  obtain ⟨t, ht⟩ := Option.isSome_iff_exists.mp hx
  obtain ⟨hxk, t₀, ht₀, -⟩ := h.completes.back ht
  exact ⟨hxk, contains_of_get? ht₀⟩

/-! ## All or nothing -/

/-- A state of a round over the graph `g`: each key was committed once or is as it was. -/
structure Atomic (g : Graph D) (r : Round D) : Prop where
  /-- Keys under evaluation are not complete. -/
  unfinished : ∀ x, r.tasks.contains x = true → r.graph.isComplete x = false
  /-- Committed keys are complete. -/
  complete : ∀ x, Committed r.log x → r.graph.isComplete x = true
  /-- No key is committed twice. -/
  once : ∀ x, r.log.countP (Event.commits x) ≤ 1
  /-- Other keys store what they stored. -/
  kept : ∀ x, ¬ Committed r.log x → (r.graph.node x).memo = (g.node x).memo
  /-- No key is forgotten. -/
  known : ∀ x, g.contains x = true → r.graph.contains x = true

namespace Atomic

variable {g : Graph D}

theorem prepare (h : Atomic g r) {calls : D.Key → Prop} (hp : Prepares calls r r') :
    Atomic g r' where
  unfinished x hx := by
    rw [hp.isComplete]
    exact (hp.begun x hx).elim (h.unfinished x) id
  complete x hx := by
    rw [hp.isComplete]
    exact h.complete x (hp.committed.mp hx)
  once x := by
    rw [hp.countP_commits]
    exact h.once x
  kept x hx := by
    rw [hp.node]
    exact h.kept x fun hc => hx (hp.committed.mpr hc)
  known x hx := hp.known x (h.known x hx)

/-- A key that is under evaluation was not committed. -/
theorem not_committed (h : Atomic g r) {k : D.Key} (hk : r.tasks.contains k = true) :
    ¬ Committed r.log k := by
  intro hc
  have hinc := h.unfinished k hk
  rw [h.complete k hc] at hinc
  cases hinc

theorem settle (h : Atomic g r) {k : D.Key} {how : Completion} (hs : Settled s k how r r') :
    Atomic g r' where
  unfinished x hx := by
    obtain ⟨hxk, hx⟩ := hs.contains_task hx
    rw [hs.settles.isComplete_of_ne hxk]
    exact h.unfinished x hx
  complete x hx := by
    rcases hs.committed.mp hx with rfl | hx
    · exact hs.settles.complete
    · exact hs.settles.isComplete_mono (h.complete x hx)
  once x := by
    rw [hs.completes.log, List.countP_cons]
    by_cases hxk : x = k
    · -- The key was under evaluation, so this is the first time.
      rw [hxk, countP_commits_eq_zero (h.not_committed hs.task)]
      split
      · exact Nat.le_refl 1
      · exact Nat.zero_le 1
    · rw [if_neg (by simpa [Event.commits] using Ne.symm hxk)]
      exact h.once x
  kept x hx := by
    have hne : x ≠ k := fun e => hx (hs.committed.mpr (.inl e))
    exact (hs.settles.others x hne).trans (h.kept x fun hc => hx (hs.committed.mpr (.inr hc)))
  known x hx := hs.known x (h.known x hx)

theorem course (h : Atomic g r) {calls : D.Key → Prop} (hc : Course s calls r r') :
    Atomic g r' := by
  induction hc with
  | start => exact h
  | prepare _ hp ih => exact ih.prepare hp
  | settle _ hs ih => exact ih.settle hs

/-- Nothing is committed before a round begins. -/
theorem blank (g : Graph D) (calls : Table D.Key Nat) : Atomic g (Round.blank g calls) := by
  have hnone (x : D.Key) : ¬ Committed (Round.blank g calls).log x :=
    fun ⟨_, hx⟩ => absurd hx List.not_mem_nil
  exact ⟨fun x hx => Bool.noConfusion hx, fun x hx => absurd hx (hnone x),
    fun x => Nat.zero_le 1, fun x _ => rfl, fun x => id⟩

/-- Every state of a round is all or nothing. -/
theorem of_reaches {calls : Table D.Key Nat} (h : Reaches s (Round.start s g calls) r) :
    Atomic g r :=
  course_induction (P := Atomic g) (blank g calls) (fun h hp => h.prepare hp)
    (fun h hs => h.settle hs) h

/-- A key that is not complete stores what it stored before the round. -/
theorem memo_of_incomplete (h : Atomic g r) {k : D.Key} (hk : r.graph.isComplete k = false) :
    (r.graph.node k).memo = (g.node k).memo := by
  refine h.kept k fun hc => ?_
  rw [h.complete k hc] at hk
  cases hk

/-- So does a key that is under evaluation. -/
theorem memo_of_task (h : Atomic g r) {k : D.Key} (hk : r.tasks.contains k = true) :
    (r.graph.node k).memo = (g.node k).memo :=
  h.memo_of_incomplete (h.unfinished k hk)

end Atomic

/-! ## Complete keys are spared -/

/-- The key is complete, and the round has nothing to do with it. -/
structure Spared (r : Round D) (x : D.Key) : Prop where
  /-- The key is complete. -/
  complete : r.graph.isComplete x = true
  /-- It is not under evaluation. -/
  idle : r.tasks.contains x = false
  /-- It is not queued. -/
  unqueued : x ∉ r.queue
  /-- It never came under evaluation. -/
  unasked : .enqueued x ∉ r.log
  /-- Its function was not called. -/
  uncalled : .called x ∉ r.log

namespace Spared

variable {x : D.Key}

theorem prepare (h : Spared r x) {calls : D.Key → Prop} (hp : Prepares calls r r') :
    Spared r' x := by
  have hinc : r.graph.isComplete x ≠ false := by
    rw [h.complete]
    exact Bool.noConfusion
  have hidle : r'.tasks.contains x ≠ true := by
    intro hx
    rcases hp.begun x hx with hx | hx
    · rw [h.idle] at hx
      cases hx
    · exact hinc hx
  obtain ⟨news, hlog, hnews⟩ := hp.told
  refine ⟨(hp.isComplete x).trans h.complete, Bool.not_eq_true _ ▸ hidle, fun hx => ?_, ?_, ?_⟩
  · exact (hp.queued x hx).elim h.unqueued hidle
  · rw [hlog, List.mem_append, not_or]
    exact ⟨fun hx => hinc (hnews _ hx), h.unasked⟩
  · rw [hlog, List.mem_append, not_or]
    exact ⟨fun hx => hinc (hnews _ hx).1, h.uncalled⟩

theorem settle (h : Spared r x) {k : D.Key} {how : Completion} (hs : Settled s k how r r') :
    Spared r' x where
  complete := hs.settles.isComplete_mono h.complete
  idle := by
    cases hx : r'.tasks.contains x with
    | false => rfl
    | true =>
        have hold := (hs.contains_task hx).2
        rw [h.idle] at hold
        cases hold
  unqueued hx := by
    rcases hs.completes.mem_queue_iff.mp hx with hx | ⟨-, -, -, t, ht, -⟩
    · exact h.unqueued hx
    · -- Only keys under evaluation wake.
      have hold := contains_of_get? ht
      rw [h.idle] at hold
      cases hold
  unasked := by
    rw [hs.completes.log]
    simpa using h.unasked
  uncalled := by
    rw [hs.completes.log]
    simpa using h.uncalled

/-- What is complete when a round begins is spared by it. -/
theorem of_reaches {g : Graph D} {calls : Table D.Key Nat}
    (h : Reaches s (Round.start s g calls) r) (hx : g.isComplete x = true) : Spared r x :=
  course_induction (P := fun r => Spared r x)
    ⟨hx, rfl, List.not_mem_nil, List.not_mem_nil, List.not_mem_nil⟩
    (fun h hp => h.prepare hp) (fun h hs => h.settle hs) h

end Spared

/-! ## Dependencies of complete keys -/

/-- A complete key has complete dependencies only, or it holds a failure which it came to in this
round, or it was complete above an incomplete dependency in `g` already. -/
def Rests (g : Graph D) (r : Round D) (k : D.Key) : Prop :=
  r.graph.isComplete k = true → (∀ d ∈ (r.graph.node k).deps.keys, r.graph.isComplete d = true) ∨
    (∃ e, (r.graph.node k).outcome = some (.failure e)) ∧
      (.completed k .failed ∈ r.log ∨
        g.isComplete k = true ∧ ∃ d ∈ (g.node k).deps.keys, g.isComplete d = false)

theorem Rests.prepare {g : Graph D} {k : D.Key} (h : Rests g r k) {calls : D.Key → Prop}
    (hp : Prepares calls r r') : Rests g r' k := by
  intro hk
  simp only [hp.node, hp.isComplete, hp.completed] at hk ⊢
  exact h hk

theorem Rests.settle {g : Graph D} {x : D.Key} (h : Rests g r x) {k : D.Key} {how : Completion}
    (hs : Settled s k how r r') : Rests g r' x := by
  intro hx
  by_cases hxk : x = k
  · subst hxk
    cases hs.cause with
    | verified hdeps hnode =>
        refine .inl fun d hd => hs.settles.isComplete_mono ?_
        rw [hnode] at hd
        exact (hdeps d hd).1
    | built _ _ _ hdeps => exact .inl fun d hd => hs.settles.isComplete_mono (hdeps d hd)
    | failed _ ho =>
        refine .inr ⟨⟨_, ho⟩, .inl ?_⟩
        rw [hs.completes.log]
        exact List.mem_cons_self
    | member _ _ ho =>
        refine .inr ⟨⟨_, ho⟩, .inl ?_⟩
        rw [hs.completes.log]
        exact List.mem_cons_self
  · obtain ⟨-, hout, hdeps, -⟩ := Node.memo_eq_iff.mp (hs.settles.others x hxk)
    rw [hs.settles.isComplete_of_ne hxk] at hx
    rw [hout, hdeps, hs.completes.log]
    refine (h hx).imp (fun hall d hd => hs.settles.isComplete_mono (hall d hd)) ?_
    exact fun ⟨hfail, hwhy⟩ => ⟨hfail, hwhy.imp (List.mem_cons_of_mem _) id⟩

/-- If values have complete dependencies when the round begins, the only complete keys above
incomplete ones are failures, and those that are new failed in this round. -/
theorem rests_of_reaches {g : Graph D} {calls : Table D.Key Nat}
    (h : Reaches s (Round.start s g calls) r)
    (hvalues : ∀ k, g.isComplete k = true → (∀ d ∈ (g.node k).deps.keys, g.isComplete d = true) ∨
      ∃ e, (g.node k).outcome = some (.failure e)) (k : D.Key) : Rests g r k := by
  refine course_induction (P := fun r => Rests g r k) (fun hk => ?_) (fun h hp => h.prepare hp)
    (fun h hs => h.settle hs) h
  by_cases hdeps : ∀ d ∈ (g.node k).deps.keys, g.isComplete d = true
  · exact .inl hdeps
  · obtain ⟨d, hd⟩ := Classical.not_forall.mp hdeps
    obtain ⟨hd, hinc⟩ := Classical.not_imp.mp hd
    exact .inr ⟨(hvalues k hk).resolve_left hdeps, .inr ⟨hk, d, hd, eq_false_of_ne_true hinc⟩⟩

end Round

end MemoGraph
