import MemoGraph.Proofs.Graph.Groups
import MemoGraph.Proofs.Round.Calls
import MemoGraph.Proofs.Round.Commits

/-!
# What a task recalls

The task of a key records what its function requested in this round, and the state that the last
invocation left.  Nothing but the invocations for this key touches either of the two: readings,
completions of other keys and the checks of the key itself keep them, and a new task has neither.
So in every state of a round both can be told from the list of invocations so far.
-/

set_option autoImplicit false

namespace MemoGraph

variable {D : Domain}

/-! ## What the invocations for a key did -/

/-- The invocations for a key. -/
def callsOf (calls : List (Call D)) (k : D.Key) : List (Call D) :=
  calls.filter fun c => decide (c.key = k)

/-- The batches that the invocations for a key requested, in order. -/
def requestedBy (calls : List (Call D)) (k : D.Key) : List (List D.Key) :=
  (callsOf calls k).flatMap fun c => c.inv.batches

/-- The state that the last invocation for a key left, if it left one. -/
def leftBy (calls : List (Call D)) (k : D.Key) : Option (Scratch D) :=
  (callsOf calls k).getLast?.bind fun c => c.inv.scratch

section Calls

variable {calls : List (Call D)} {c : Call D} {k : D.Key}

theorem callsOf_append (calls more : List (Call D)) (k : D.Key) :
    callsOf (calls ++ more) k = callsOf calls k ++ callsOf more k := List.filter_append ..

theorem callsOf_eq_nil (h : ∀ c ∈ calls, c.key ≠ k) : callsOf calls k = [] :=
  List.filter_eq_nil_iff.mpr fun c hc => by simpa using h c hc

/-- Invocations for other keys do not count. -/
theorem callsOf_append_of_nil {more : List (Call D)} (h : callsOf more k = []) :
    callsOf (calls ++ more) k = callsOf calls k := by
  rw [callsOf_append, h, List.append_nil]

theorem callsOf_append_self (calls : List (Call D)) (c : Call D) :
    callsOf (calls ++ [c]) c.key = callsOf calls c.key ++ [c] := by
  simp [callsOf]

theorem requestedBy_append_self (calls : List (Call D)) (c : Call D) :
    requestedBy (calls ++ [c]) c.key = requestedBy calls c.key ++ c.inv.batches := by
  simp [requestedBy, callsOf_append_self]

theorem leftBy_append_self (calls : List (Call D)) (c : Call D) :
    leftBy (calls ++ [c]) c.key = c.inv.scratch := by
  simp [leftBy, callsOf_append_self]

/-- Before the first invocation for a key nothing is left. -/
theorem leftBy_eq_none (h : ∀ c ∈ calls, c.key ≠ k) : leftBy calls k = none := by
  rw [leftBy, callsOf_eq_nil h]
  rfl

/-- The last invocation for a key is the one after which there are only others. -/
theorem leftBy_append_cons {last : Call D} {later : List (Call D)}
    (h : ∀ c ∈ later, c.key ≠ last.key) :
    leftBy (calls ++ last :: later) last.key = last.inv.scratch := by
  rw [List.append_cons, leftBy, callsOf_append_of_nil (callsOf_eq_nil h), ← leftBy,
    leftBy_append_self]

end Calls

namespace Round

variable {s : Setting D} {r r₁ r' : Round D}

/-! ## Tasks that are carried along -/

/-- A task recalls what it recalled in an earlier round, or its key is new and it recalls
nothing. -/
def Carried (r : Round D) (k : D.Key) (t : Task D) : Prop :=
  (∃ t₀, r.tasks.get? k = some t₀ ∧ t.requested = t₀.requested ∧ t.scratch = t₀.scratch) ∨
    (¬ r.Known k ∧ t.requested = ∅ ∧ t.scratch = none)

/-- All tasks of the second round are carried along from the first. -/
def Carries (r r' : Round D) : Prop := ∀ k t, r'.tasks.get? k = some t → Carried r k t

theorem Carried.congr {k : D.Key} {t t' : Task D} (h : Carried r k t)
    (hrequested : t'.requested = t.requested) (hscratch : t'.scratch = t.scratch) :
    Carried r k t' := by
  rcases h with ⟨t₀, ht₀, hr, hs⟩ | ⟨hnew, hr, hs⟩
  · exact .inl ⟨t₀, ht₀, hrequested.trans hr, hscratch.trans hs⟩
  · exact .inr ⟨hnew, hrequested.trans hr, hscratch.trans hs⟩

theorem Carries.refl (r : Round D) : Carries r r := fun _ t ht => .inl ⟨t, ht, rfl, rfl⟩

theorem Reads.carries (h : Reads r r') : Carries r r' := by
  intro k t ht
  cases hold : r.tasks.get? k with
  | none =>
      obtain ⟨hk, waiters, rfl⟩ := h.begun k t hold ht
      refine .inr ⟨?_, rfl, rfl⟩
      rintro (hc | hc)
      · exact Bool.false_ne_true (hk.symm.trans hc)
      · rw [Table.contains, hold] at hc
        cases hc
  | some t₀ =>
      obtain ⟨waiters, hkept⟩ := h.kept k t₀ hold
      obtain rfl := Option.some.inj (ht.symm.trans hkept)
      exact .inl ⟨t₀, hold, rfl, rfl⟩

theorem Carries.complete (h : Carries r r₁) {k : D.Key} {how : Completion}
    (hc : Completes s k how r₁ r') : Carries r r' := by
  intro x t ht
  obtain ⟨-, t₀, ht₀, rfl⟩ := hc.get?_eq_some_iff.mp ht
  refine (h x t₀ ht₀).congr ?_ ?_
  · split <;> rfl
  · split <;> rfl

theorem Carries.retask (h : Carries r r₁) {k : D.Key} {t : Task D} (ht : Carried r k t)
    (queue : List D.Key) :
    Carries r { r₁ with tasks := r₁.tasks.insert k t, queue := queue } := by
  intro x t' hx
  rcases Table.get?_insert_eq_some_iff.mp hx with ⟨rfl, rfl⟩ | ⟨-, hx⟩
  · exact ht
  · exact h x t' hx

/-- A step that invokes no function carries all tasks along. -/
theorem carries_of_step (hcall : r.call? s = none) (hstep : r.step s = some r') : Carries r r' := by
  cases noCall_of_step hcall hstep with
  | skipped _ => exact .refl r
  | @verified k rest _ =>
      exact (Carries.refl { r with queue := rest }).complete (completes_clean s _ k)
  | @checked k rest t i group waiters seen r₁ hc =>
      have hreads : Carries r r₁ := hc.reads.carries
      obtain ⟨active, queue, he⟩ := concludeGroup_frame r₁ k { t with waiters := waiters } i seen
      rw [he]
      refine hreads.retask ?_ queue
      exact (hreads k _ hc.kept).congr rfl rfl
  | cut hreads => exact hreads.carries
  | unregistered _ _ _ _ _ => exact .refl r
  | broken =>
      exact failMembers_induction _ (P := Carries r) (Carries.refl r)
        fun k _ r₁ h _ _ => h.complete (completes_failed s r₁ k _ _)

/-! ## The tasks and the invocations so far -/

/-- Every task recalls what the invocations for its key did. -/
structure Recalls (calls : List (Call D)) (r : Round D) : Prop where
  /-- The requests, and the state that was left. -/
  task : ∀ k t, r.tasks.get? k = some t →
    t.requested = .ofBatches (requestedBy calls k) ∧ t.scratch = leftBy calls k
  /-- Functions are invoked for known keys only. -/
  known : ∀ c ∈ calls, r.Known c.key

namespace Recalls

variable {calls : List (Call D)} {c : Call D}

/-- A task that is carried along recalls the same invocations. -/
theorem carried (h : Recalls calls r) {k : D.Key} {t : Task D} (ht : Carried r k t) :
    t.requested = .ofBatches (requestedBy calls k) ∧ t.scratch = leftBy calls k := by
  rcases ht with ⟨t₀, ht₀, hrequested, hscratch⟩ | ⟨hnew, hrequested, hscratch⟩
  · rw [hrequested, hscratch]
    exact h.task k t₀ ht₀
  · have hnil : callsOf calls k = [] := callsOf_eq_nil fun c hc e => hnew (e ▸ h.known c hc)
    rw [requestedBy, leftBy, hnil]
    exact ⟨hrequested, hscratch⟩

/-- One more invocation. -/
theorem call (h : Recalls calls r) (hg : Grounded s r) (ht : Tally r none 0 [])
    (hcall : r.call? s = some c) (hstep : r.step s = some r') :
    r'.halted = true ∨ Recalls (calls ++ [c]) r' := by
  have hknown {x : D.Key} (hx : r.Known x) : r'.Known x := Tally.known_step (.inr ht) hstep hx
  obtain ⟨rest, t, f, hcalls⟩ := calls_of_call? hcall
  have hreads : Carries r c.left := hcalls.reads.carries
  have hnow : r.Known c.key := .inr (contains_of_get? hcalls.task)
  have hall : ∀ c' ∈ calls ++ [c], r'.Known c'.key := by
    intro c' hc'
    rcases List.mem_append.mp hc' with hc' | hc'
    · exact hknown (h.known c' hc')
    · exact List.mem_singleton.mp hc' ▸ hknown hnow
  -- The tasks of other keys recall nothing new.
  have hother {x : D.Key} {t' : Task D} (hx : c.key ≠ x) (hc : Carried r x t') :
      t'.requested = .ofBatches (requestedBy (calls ++ [c]) x) ∧
        t'.scratch = leftBy (calls ++ [c]) x := by
    have hnil : callsOf [c] x = [] := callsOf_eq_nil fun c' hc' => List.mem_singleton.mp hc' ▸ hx
    rw [requestedBy, leftBy, callsOf_append_of_nil hnil]
    exact h.carried hc
  obtain ⟨t', htask, -, hends⟩ := ends_of_call hg ht hcall hstep
  obtain rfl := Option.some.inj (hcalls.task.symm.trans htask)
  cases leads_of_ends hends with
  | stopped hh _ _ => exact .inl hh
  | completed hc _ =>
      refine .inr ⟨fun x t' hx => hother (fun e => ?_) (hreads.complete hc x t' hx), hall⟩
      exact (hc.get?_eq_some_iff.mp hx).1 e.symm
  | waiting =>
      refine .inr ⟨fun x t' hx => ?_, hall⟩
      rcases Table.get?_insert_eq_some_iff.mp hx with ⟨rfl, rfl⟩ | ⟨hne, hx⟩
      · rw [requestedBy_append_self, leftBy_append_self, DepGroups.ofBatches_append,
          ← (h.task c.key t hcalls.task).1]
        exact ⟨rfl, rfl⟩
      · exact hother (fun e => hne e.symm) (hreads x t' hx)

theorem step (h : Recalls calls r) (hg : Grounded s r) (ht : Tally r none 0 [])
    (hstep : r.step s = some r') :
    r'.halted = true ∨ Recalls (calls ++ (r.call? s).toList) r' := by
  cases hcall : r.call? s with
  | some c => exact h.call hg ht hcall hstep
  | none =>
      rw [Option.toList_none, List.append_nil]
      exact .inr ⟨fun x t hx => h.carried (carries_of_step hcall hstep x t hx),
        fun c hc => Tally.known_step (.inr ht) hstep (h.known c hc)⟩

/-- In every state of a round that is not to stop, tasks recall the invocations so far. -/
theorem of_ran {graph : Graph D} {counts : Table D.Key Nat}
    (hg : ∀ r, Reaches s (Round.start s graph counts) r → Grounded s r)
    (hran : Ran s (Round.start s graph counts) calls r) : r.halted = true ∨ Recalls calls r := by
  induction hran with
  | begin =>
      refine .inr ⟨fun k t ht => ?_, fun c hc => absurd hc List.not_mem_nil⟩
      obtain ⟨-, -, rfl⟩ := task_of_start ht
      exact ⟨rfl, rfl⟩
  | @step calls r r' hran hstep ih =>
      cases hh : r.halted with
      | true => exact .inl (halted_step hh hstep)
      | false =>
          have htally := tally_of_going hran.reaches hh
          exact (ih.resolve_left (by simp [hh])).step (hg r hran.reaches) htally hstep

/-- An invocation finds what the invocations for its key before it requested and left. -/
theorem of_call {graph : Graph D} {counts : Table D.Key Nat}
    (hg : ∀ r, Reaches s (Round.start s graph counts) r → Grounded s r)
    (hran : Ran s (Round.start s graph counts) calls r) (hcall : r.call? s = some c) :
    ∃ t, r.tasks.get? c.key = some t ∧ t.requested = .ofBatches (requestedBy calls c.key) ∧
      c.found = leftBy calls c.key := by
  obtain ⟨rest, t, f, hcalls⟩ := calls_of_call? hcall
  have hrecalls := (of_ran hg hran).resolve_left (by simp [hcalls.going])
  obtain ⟨hrequested, hscratch⟩ := hrecalls.task c.key t hcalls.task
  exact ⟨t, hcalls.task, hrequested, hcalls.found.trans hscratch⟩

end Recalls

/-! ## What a completed key has recorded -/

section Completed

variable {graph : Graph D} {counts : Table D.Key Nat} {calls more : List (Call D)} {c : Call D}

/-- How a key can complete in a step. -/
theorem completion_cases (hg : Grounded s r) (ht : r.halted = true ∨ Tally r none 0 [])
    (hstep : r.step s = some r') {k : D.Key} {how : Completion}
    (hnew : .completed k how ∈ r'.log) (hold : .completed k how ∉ r.log) :
    how = .clean ∨ (∃ c, r.call? s = some c ∧ c.key = k) ∨
      r.queue = [] ∧ ∃ cycle ∈ r.heldUpBy s, k ∈ cycle.members := by
  cases advance_of_step hstep with
  | skipped _ _ => exact absurd hnew hold
  | @acted x rest _ hq hh hm =>
      cases leaves_of_move hg (ht.resolve_left (by simp [hh])) hq hm with
      | nothing _ hlog => exact absurd (hlog k how hnew) hold
      | confirmed _ _ _ hc _ =>
          rw [hc.log, List.mem_cons, Event.completed.injEq] at hnew
          exact .inl (hnew.resolve_right hold).2
      | concluded hi _ hc _ =>
          rw [hc.log, List.mem_cons, Event.completed.injEq, hi.reads.completed] at hnew
          obtain ⟨rfl, -⟩ := hnew.resolve_right hold
          obtain ⟨c, hcall, hk, -⟩ := call?_of_invoke hh hq hi.task hi.mode hi.function hi.run
          exact .inr (.inl ⟨c, hcall, hk⟩)
  | broken hq _ _ _ =>
      rcases onlyBuilt_failMembers s r _ k how hnew with h | h | h
      · exact absurd h hold
      · exact .inl h
      · exact .inr (.inr ⟨hq, h⟩)

/-- A function whose invocation completed its key has recorded what all invocations for the key
requested. -/
theorem deps_of_call (hg : ∀ r, Reaches s (Round.start s graph counts) r → Grounded s r)
    (hran : Ran s (Round.start s graph counts) calls r) (hcall : r.call? s = some c)
    (hstep : r.step s = some r') (hcommitted : Committed r'.log c.key) :
    (r'.graph.node c.key).deps = .ofBatches (requestedBy (calls ++ [c]) c.key) := by
  obtain ⟨rest, _, f, hcalls⟩ := calls_of_call? hcall
  obtain ⟨t, ht, hrequested, -⟩ := Recalls.of_call hg hran hcall
  have htally := tally_of_going hran.reaches hcalls.going
  obtain ⟨t', ht', -, hends⟩ := ends_of_call (hg r hran.reaches) htally hcall hstep
  obtain rfl := Option.some.inj (ht.symm.trans ht')
  rw [requestedBy_append_self, DepGroups.ofBatches_append, ← hrequested]
  -- A key that keeps its task is not completed.
  have hkept (htask : r'.tasks.contains c.key = true) :
      (r'.graph.node c.key).deps = t.requested.pushAll c.inv.batches :=
    absurd hcommitted ((Atomic.of_reaches (hran.reaches.tail hstep)).not_committed htask)
  cases leads_of_ends hends with
  | stopped _ htasks _ =>
      obtain ⟨waiters, hleft⟩ := hcalls.reads.kept c.key _ hcalls.task
      exact hkept (by rw [htasks]; exact contains_of_get? hleft)
  | completed _ hdeps => exact hdeps
  | waiting => exact hkept (Table.contains_insert.mpr (.inl rfl))

/-- The function of a complete key is not invoked. -/
theorem callsOf_eq_nil_of_isComplete (hr : Reaches s (Round.start s graph counts) r) {k : D.Key}
    (hk : r.graph.isComplete k = true) (h : Ran s r more r') : callsOf more k = [] := by
  induction h with
  | begin => rfl
  | @step more r₁ r₂ hran hstep ih =>
      have hr₁ := hr.trans hran.reaches
      rw [callsOf_append, ih, List.nil_append]
      refine callsOf_eq_nil fun c hc => ?_
      obtain ⟨rest, t, f, hcalls⟩ := calls_of_call? (Option.mem_toList.mp hc)
      have htally := tally_of_going hr₁ hcalls.going
      have hopen := htally.unfinished c.key t hcalls.task
      have hcomplete : r₁.graph.isComplete k = true :=
        (Node.isComplete_of_memo_eq (memo_of_reaches hr hran.reaches hk)).trans hk
      rintro rfl
      exact Bool.false_ne_true (hopen.symm.trans hcomplete)

end Completed

end Round

end MemoGraph
