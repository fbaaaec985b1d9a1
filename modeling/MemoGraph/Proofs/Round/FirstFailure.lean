import MemoGraph.Proofs.Cycle.Search
import MemoGraph.Proofs.Round.FailFast

/-!
# Until the first failure

Whether a round keeps going matters to it at failures only.  So as long as no key fails, a round
that would stop takes the same steps as one that would go on.
-/

set_option autoImplicit false

namespace MemoGraph

variable {D : Domain}

/-- The same round, but one that goes on after failures. -/
def Setting.patient (s : Setting D) : Setting D := { s with keepGoing := true }

namespace Round

variable {s : Setting D} {r r' : Round D}

/-! ## One action -/

theorem readEach_patient (s : Setting D) (k : D.Key) (accepts : D.Fault → Bool)
    (batch : List D.Key) (inv : Invocation D) (r : Round D) :
    r.readEach s.patient k accepts batch inv = r.readEach s k accepts batch inv := by
  induction batch generalizing inv r with
  | nil => rfl
  | cons dep rest ih =>
      have hone : r.readOne s.patient k dep = r.readOne s k dep := rfl
      simp only [readEach, hone, ih]

theorem run_patient (s : Setting D) (k : D.Key) (recipe : Recipe D) (inv : Invocation D)
    (r : Round D) : recipe.run s.patient k inv r = recipe.run s k inv r := by
  induction recipe generalizing inv r with
  | value v => rfl
  | needsDeps => rfl
  | fault e => rfl
  | crash payload => rfl
  | read batch accepts next ih => simp only [Recipe.run, readEach_patient, ih]
  | valuesMissing next ih => exact ih _ _ _
  | isInterrupted next ih => exact ih _ _ _
  | version next ih => exact ih _ _ _
  | load slot next ih => exact ih _ _ _
  | store slot content next ih => exact ih _ _
  | interrupt next ih => exact ih _ _

theorem readGroup_patient (s : Setting D) (k : D.Key) (since : Version) (group : List D.Key)
    (seen : GroupReading D.Key) (r : Round D) :
    readGroup s.patient k since group seen r = readGroup s k since group seen r := by
  induction group generalizing seen r with
  | nil => rfl
  | cons dep rest ih => exact ih _ _

/-- A failure is noticed in a round that does not keep going. -/
theorem stopping_completeFailed (hs : s.keepGoing = false) (k : D.Key)
    (deps : Option (DepGroups D.Key)) (e : Failure D.Key D.Fault) :
    (r.completeFailed s k deps e).stopping = true := by
  rw [(completes_failed s r k deps e).stopping, hs]
  simp

/-- Drawing a consequence without failing. -/
theorem conclude_patient (hs : s.keepGoing = false) {k : D.Key} {t : Task D}
    {inv : Invocation D} {ending : Ending D}
    (hgo : (r.conclude s k t inv ending).stopping = false) :
    r.conclude s.patient k t inv ending = r.conclude s k t inv ending := by
  have hfails {deps : Option (DepGroups D.Key)} {e : Failure D.Key D.Fault}
      (h : (r.completeFailed s k deps e).stopping = false) : False :=
    absurd (h.symm.trans (stopping_completeFailed hs k deps e)) Bool.false_ne_true
  cases ending with
  | crash payload => rfl
  | fault e => exact (hfails hgo).elim
  | value v => rfl
  | needsDeps =>
      simp only [conclude] at hgo ⊢
      split at hgo
      · rename_i hm
        rw [if_pos hm, if_pos hm]
        unfold concludeWaiting at hgo ⊢
        dsimp only at hgo ⊢
        split at hgo
        · rename_i hw
          rw [if_pos hw, if_pos hw]
        · rename_i hw
          rw [if_neg hw, if_neg hw]
          split at hgo
          · rename_i hnone
            rw [if_pos hnone, if_pos hnone]
          · exact (hfails hgo).elim
      · rename_i hm
        rw [if_neg hm, if_neg hm]

/-- An action that fails no key is the same in a round that would go on. -/
theorem process_patient (hs : s.keepGoing = false) {k : D.Key}
    (hgo : (r.process s k).stopping = false) : r.process s.patient k = r.process s k := by
  have hinvoke (f : Function D) (scratch : Option (Scratch D)) :
      r.invoke s.patient k f scratch = r.invoke s k f scratch := run_patient s k _ _ _
  unfold process at hgo ⊢
  cases ht : r.tasks.get? k with
  | none => rfl
  | some t =>
      rw [ht] at hgo
      dsimp only at hgo ⊢
      cases hm : t.mode with
      | check i =>
          dsimp only
          cases (r.graph.node k).deps.group? i with
          | none => rfl
          | some group =>
              dsimp only [checkGroup]
              rw [readGroup_patient]
      | rebuild =>
          rw [hm] at hgo
          dsimp only [rebuild, Setting.patient] at hgo ⊢
          cases hf : s.registry.find? k with
          | none => rfl
          | some f =>
              rw [hf] at hgo
              dsimp only at hgo ⊢
              rw [show r.invoke { s with keepGoing := true } k f t.scratch =
                r.invoke s k f t.scratch from hinvoke f t.scratch]
              obtain ⟨ending, inv, r₁, hrun⟩ :
                  ∃ ending inv r₁, r.invoke s k f t.scratch = (ending, inv, r₁) := ⟨_, _, _, rfl⟩
              rw [hrun] at hgo ⊢
              dsimp only at hgo ⊢
              split at hgo
              · rename_i hstop
                rw [if_pos hstop, if_pos hstop]
              · rename_i hstop
                rw [if_neg hstop, if_neg hstop]
                cases ht₁ : r₁.tasks.get? k with
                | none => rfl
                | some t₁ =>
                    rw [ht₁] at hgo
                    exact conclude_patient hs hgo

/-! ## Steps and runs -/

/-- Breaking cycles fails a key. -/
theorem stopping_failMembers (hs : s.keepGoing = false) (hheld : r.heldUpBy s ≠ []) :
    (r.failMembers s (r.heldUpBy s)).stopping = true := by
  obtain ⟨c, hc⟩ := List.exists_mem_of_ne_nil _ hheld
  have hsound := Cycle.sound_of_mem_find hc
  obtain ⟨k, hk⟩ := List.exists_mem_of_ne_nil _ hsound.nonempty
  obtain ⟨t, ht⟩ := Table.mem_keys_iff.mp (hsound.inside k hk)
  -- The member had a task and has none any more.
  have hall := failMembers_induction (s := s) (r := r) (r.heldUpBy s)
    (P := fun r₀ => r₀.stopping = true ∨ r₀.tasks = r.tasks) (.inr rfl)
    fun k t r₀ _ _ _ => .inl (stopping_completeFailed hs k _ _)
  refine hall.resolve_right fun htasks => ?_
  have hnone := tasks_failMembers (s := s) (r := r) hc hk
  rw [htasks, ht] at hnone
  cases hnone

theorem step_patient (hs : s.keepGoing = false) (hstep : r.step s = some r')
    (hgo : r'.stopping = false) : r.step s.patient = some r' := by
  unfold step at hstep ⊢
  cases hq : r.queue with
  | cons k rest =>
      rw [hq] at hstep
      obtain rfl := Option.some.inj hstep
      dsimp only at hgo ⊢
      split at hgo
      · rename_i hh
        rw [if_pos hh, if_pos hh]
      · rename_i hh
        rw [if_neg hh, if_neg hh, process_patient hs hgo]
  | nil =>
      rw [hq] at hstep
      dsimp only at hstep
      split at hstep
      · cases hstep
      · split at hstep
        · cases hstep
        · rename_i hfound
          obtain rfl := Option.some.inj hstep
          have hstop := stopping_failMembers hs fun e => hfound (by rw [e]; rfl)
          exact absurd (hgo.symm.trans hstop) Bool.false_ne_true

theorem step_patient_eq_none (hend : r.step s = none) : r.step s.patient = none := by
  unfold step at hend ⊢
  cases hq : r.queue with
  | cons k rest =>
      rw [hq] at hend
      cases hend
  | nil =>
      rw [hq] at hend
      dsimp only at hend ⊢
      split at hend
      · rename_i hh
        rw [if_pos hh]
      · rename_i hh
        rw [if_neg hh]
        split at hend
        · rename_i hfound
          exact if_pos hfound
        · cases hend

/-- A round that ends without a failure ends in the same way if it would have gone on. -/
theorem run_patient_of_end (hs : s.keepGoing = false) {budget : Nat}
    (h : Round.run s budget r = some r') (hgo : r'.stopping = false) :
    Round.run s.patient budget r = some r' := by
  induction budget generalizing r with
  | zero => cases h
  | succ budget ih =>
      unfold Round.run at h ⊢
      cases hstep : r.step s with
      | none =>
          rw [hstep] at h
          rw [step_patient_eq_none hstep]
          exact h
      | some r₁ =>
          rw [hstep] at h
          have hgo₁ : r₁.stopping = false := by
            cases hstop : r₁.stopping with
            | false => rfl
            | true =>
                have hlater := stopping_reaches hstop (reaches_of_run h).1
                exact absurd (hgo.symm.trans hlater) Bool.false_ne_true
          rw [step_patient hs hstep hgo₁]
          exact ih h

end Round

end MemoGraph
