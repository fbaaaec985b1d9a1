import MemoGraph.Proofs.Recipe.Plan

/-!
# Functions that accept no failure

A function that is never shown a failure of a dependency cannot go on once it has read one.  So a
failure passes through every function that comes to read it.
-/

set_option autoImplicit false

namespace MemoGraph

variable {D : Domain}

namespace Plan

/-- No failure of a dependency is shown to a function that follows the plan. -/
inductive AcceptsNone : Plan D → Prop where
  /-- nothing is read -/
  | value (v : D.Value) : AcceptsNone (.value v)
  /-- nothing is read -/
  | fault (e : D.Fault) : AcceptsNone (.fault e)
  /-- nothing is read -/
  | broken : AcceptsNone .broken
  /-- no declared fault is accepted, now or later -/
  | read {batch : List D.Key} {accepts : D.Fault → Bool} {next : Table D.Key (Answer D) → Plan D} :
      (∀ e, accepts e = false) →
      (∀ look : Sight D, look.lacks accepts batch = false →
        AcceptsNone (next (look.answers accepts batch))) →
      AcceptsNone (.read batch accepts next)

/-- A failure that is read is the end of it, and is collected. -/
theorem AcceptsNone.failed {plan : Plan D} (h : plan.AcceptsNone) {look : Sight D}
    {batch : List D.Key} (hbatch : batch ∈ (plan.consult look).batches) {d : D.Key}
    (hd : d ∈ batch) {e : Failure D.Key D.Fault} (he : look d = some (.failure e)) :
    (plan.consult look).upshot = .lacking ∧ e ∈ (plan.consult look).failed := by
  induction h with
  | value v => exact absurd hbatch List.not_mem_nil
  | fault e => exact absurd hbatch List.not_mem_nil
  | broken => exact absurd hbatch List.not_mem_nil
  | @read keys accepts next haccepts _ ih =>
      have hfailed : look.failed accepts d = some e := by
        have hnone : e.fault.filter accepts = none := by
          rw [Option.filter_eq_none_iff]
          exact fun fault _ => by simp [haccepts fault]
        simp only [Sight.failed, he, hnone, Option.isSome_none, Bool.false_eq_true, if_false]
      cases hl : look.lacks accepts keys with
      | true =>
          rw [consult_of_lacks hl] at hbatch ⊢
          obtain rfl := List.mem_singleton.mp hbatch
          exact ⟨rfl, List.mem_filterMap.mpr ⟨d, hd, hfailed⟩⟩
      | false =>
          rw [consult_of_not_lacks hl] at hbatch ⊢
          refine ih look hl ((List.mem_cons.mp hbatch).resolve_left ?_)
          -- The keys of this batch all have values.
          rintro rfl
          rw [(Sight.lacks_eq_false.mp hl d hd).2] at hfailed
          cases hfailed

end Plan

/-- No function is shown a failure of a dependency. -/
def Registry.AcceptsNone (registry : Registry D) : Prop :=
  ∀ k f, registry.find? k = some f → ∃ plan, f.Follows k plan ∧ plan.AcceptsNone

/-- Whoever reads a failure fails with its root causes. -/
theorem Registry.AcceptsNone.inherits {registry : Registry D} (h : registry.AcceptsNone)
    {k : D.Key} {f : Function D} (hf : registry.find? k = some f) {plan : Plan D}
    (hplan : f.Follows k plan) {look : Sight D} {batch : List D.Key}
    (hbatch : batch ∈ (plan.consult look).batches) {d : D.Key} (hd : d ∈ batch)
    {e : Failure D.Key D.Fault} (he : look d = some (.failure e)) {o : Outcome D}
    (ho : (plan.consult look).outcome? k = some o) :
    ∃ e', o = .failure e' ∧ ∀ c ∈ e.rootCauses, c ∈ e'.rootCauses := by
  obtain ⟨plan', hplan', hnone⟩ := h k f hf
  rw [(hplan 0).consult_eq (hplan' 0)] at hbatch ho
  obtain ⟨hlacking, hfailed⟩ := hnone.failed hbatch hd he
  simp only [Consultation.outcome?, hlacking] at ho
  split at ho
  · refine ⟨_, (Option.some.inj ho).symm, fun c hc => ?_⟩
    exact OrderedSet.mem_ofList.mpr (List.mem_flatMap.mpr ⟨e, hfailed, OrderedSet.mem_def.mp hc⟩)
  · cases ho

end MemoGraph
