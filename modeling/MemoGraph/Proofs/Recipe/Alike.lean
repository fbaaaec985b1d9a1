import Mathlib.Data.List.Forall2
import MemoGraph.Proofs.Recipe.Plan

/-!
# Outcomes that count as the same

Where values and faults are compared by equality, outcomes that count as the same differ at most in
the order in which root causes are listed.  No function can tell them apart: a plan that is
consulted on such outcomes reads the same batches and comes to outcomes that count as the same.
-/

set_option autoImplicit false

namespace MemoGraph

variable {D : Domain}

/-- Outcomes count as the same only if they are equal. -/
structure Domain.Exact (D : Domain) : Prop where
  /-- Values are compared by equality. -/
  value : ∀ v v', D.sameValue v v' = true ↔ v = v'
  /-- Faults are compared by equality. -/
  fault : ∀ e e', D.sameFault e e' = true ↔ e = e'

/-- Failures that differ at most in the order of their root causes. -/
structure Failure.Alike {K E : Type} (e e' : Failure K E) : Prop where
  /-- The same fault, or none. -/
  fault : e.fault = e'.fault
  /-- The same keys are to blame. -/
  rootCauses : ∀ k, k ∈ e.rootCauses ↔ k ∈ e'.rootCauses
  /-- The same cycles are to blame. -/
  cycles : e.cycles = e'.cycles
  /-- Both own, or both propagated. -/
  origin : e.origin = e'.origin

/-- Equal values, or failures that differ at most in the order of their root causes. -/
inductive Outcome.Alike : Outcome D → Outcome D → Prop where
  /-- equal values -/
  | value (v : D.Value) : Alike (.value v) (.value v)
  /-- like failures -/
  | failure {e e' : Failure D.Key D.Fault} : e.Alike e' → Alike (.failure e) (.failure e')

/-- Failures that count as the same both carry a fault, or neither does. -/
theorem Failure.isSome_fault_of_same {K E : Type} [DecidableEq K] {sameFault : E → E → Bool}
    {e e' : Failure K E} (h : e.same sameFault e' = true) : e.fault.isSome = e'.fault.isSome := by
  simp only [Failure.same, Bool.and_eq_true] at h
  have hfault := h.1.1.1
  cases hf : e.fault with
  | none =>
      cases hf' : e'.fault with
      | none => rfl
      | some fault => simp [hf, hf'] at hfault
  | some fault =>
      cases hf' : e'.fault with
      | none => simp [hf, hf'] at hfault
      | some fault' => rfl

namespace Failure.Alike

variable {K E : Type} {e e' e'' : Failure K E}

theorem refl (e : Failure K E) : e.Alike e := ⟨rfl, fun _ => Iff.rfl, rfl, rfl⟩

theorem symm (h : e.Alike e') : e'.Alike e :=
  ⟨h.fault.symm, fun k => (h.rootCauses k).symm, h.cycles.symm, h.origin.symm⟩

theorem trans (h : e.Alike e') (h' : e'.Alike e'') : e.Alike e'' :=
  ⟨h.fault.trans h'.fault, fun k => (h.rootCauses k).trans (h'.rootCauses k),
    h.cycles.trans h'.cycles, h.origin.trans h'.origin⟩

/-- Passing on like failures. -/
theorem passedOn (h : e.Alike e') (k : K) (fault : E) :
    (Failure.passedOn k fault e).Alike (.passedOn k fault e') where
  fault := rfl
  rootCauses := h.rootCauses
  cycles := congrArg (List.map (Cycle.seenFrom k)) h.cycles
  origin := rfl

/-- Failing for want of children that failed alike. -/
theorem ofChildren [DecidableEq K] (k : K) {l l' : List (Failure K E)}
    (h : List.Forall₂ Failure.Alike l l') :
    (Failure.ofChildren k l).Alike (.ofChildren k l') := by
  have hfault : l.findSome? Failure.fault = l'.findSome? Failure.fault := by
    induction h with
    | nil => rfl
    | cons hhead _ ih => rw [List.findSome?_cons, List.findSome?_cons, hhead.fault, ih]
  have hcycles : l.flatMap Failure.cycles = l'.flatMap Failure.cycles := by
    clear hfault
    induction h with
    | nil => rfl
    | cons hhead _ ih => rw [List.flatMap_cons, List.flatMap_cons, hhead.cycles, ih]
  refine ⟨hfault, fun x => ?_, ?_, rfl⟩
  · simp only [Failure.ofChildren, OrderedSet.mem_ofList, List.mem_flatMap, ← OrderedSet.mem_def]
    clear hfault hcycles
    induction h with
    | nil => simp
    | cons hhead _ ih => simp only [List.exists_mem_cons_iff, hhead.rootCauses, ih]
  · rw [Failure.ofChildren, Failure.ofChildren, cyclesBelow, cyclesBelow, hcycles]

end Failure.Alike

namespace Outcome

variable {o o' o'' : Outcome D}

theorem Alike.refl (o : Outcome D) : o.Alike o := by
  cases o with
  | value v => exact .value v
  | failure e => exact .failure (.refl e)

theorem Alike.symm (h : o.Alike o') : o'.Alike o := by
  cases h with
  | value v => exact .value v
  | failure h => exact .failure h.symm

theorem Alike.trans (h : o.Alike o') (h' : o'.Alike o'') : o.Alike o'' := by
  cases h with
  | value v => exact h'
  | failure h =>
      cases h' with
      | failure h' => exact .failure (h.trans h')

/-- Where values and faults are compared by equality, outcomes count as the same if they are
alike. -/
theorem same_iff_alike (hD : D.Exact) : o.same o' = true ↔ o.Alike o' := by
  cases o with
  | value v =>
      cases o' with
      | value v' =>
          refine (hD.value v v').trans ⟨fun h => h ▸ .value v, fun h => ?_⟩
          cases h
          rfl
      | failure e' => exact ⟨fun h => (by cases h), fun h => (by cases h)⟩
  | failure e =>
      cases o' with
      | value v' => exact ⟨fun h => (by cases h), fun h => (by cases h)⟩
      | failure e' =>
          have hfault : e.Alike e' ↔ e.same D.sameFault e' = true := by
            have hiff : e.same D.sameFault e' = true ↔ e.fault = e'.fault ∧
                (∀ k, k ∈ e.rootCauses ↔ k ∈ e'.rootCauses) ∧ e.cycles = e'.cycles ∧
                  e.origin = e'.origin := by
              simp only [Failure.same, Bool.and_eq_true, decide_eq_true_eq,
                OrderedSet.sameMembers_iff, and_assoc]
              refine and_congr_left fun _ => ?_
              cases e.fault with
              | none =>
                  cases e'.fault with
                  | none => simp
                  | some fault' => simp
              | some fault =>
                  cases e'.fault with
                  | none => simp
                  | some fault' => simp [hD.fault]
            rw [hiff]
            exact ⟨fun h => ⟨h.fault, h.rootCauses, h.cycles, h.origin⟩,
              fun h => ⟨h.1, h.2.1, h.2.2.1, h.2.2.2⟩⟩
          refine ⟨fun h => .failure (hfault.mpr h), fun h => ?_⟩
          cases h with
          | failure h => exact hfault.mp h

theorem eq_of_same_value (hD : D.Exact) {v : D.Value} (h : o.same (.value v) = true) :
    o = .value v := by
  cases (same_iff_alike hD).mp h with
  | value v => rfl

end Outcome

/-! ## Consultations -/

namespace Sight

variable {look look' : Sight D}

/-- What is in both sights is alike. -/
def Agrees (look look' : Sight D) : Prop :=
  ∀ d o o', look d = some o → look' d = some o' → o.Alike o'

/-- Reading a key that is in both sights. -/
theorem Agrees.read (h : look.Agrees look') (accepts : D.Fault → Bool) {d : D.Key}
    (hd : look d ≠ none) (hd' : look' d ≠ none) :
    look.answer accepts d = look'.answer accepts d ∧
      Option.Rel Failure.Alike (look.shown accepts d) (look'.shown accepts d) ∧
      Option.Rel Failure.Alike (look.failed accepts d) (look'.failed accepts d) := by
  obtain ⟨o, ho⟩ := Option.ne_none_iff_exists'.mp hd
  obtain ⟨o', ho'⟩ := Option.ne_none_iff_exists'.mp hd'
  cases h d o o' ho ho' with
  | value v =>
      refine ⟨?_, ?_, ?_⟩
      · simp [answer, ho, ho']
      · simp [shown, ho, ho']
      · simp [failed, ho, ho']
  | @failure e e' halike =>
      have hfilter : e.fault.filter accepts = e'.fault.filter accepts := by rw [halike.fault]
      cases hf : e'.fault.filter accepts with
      | none =>
          refine ⟨?_, ?_, ?_⟩
          · simp [answer, ho, ho', hfilter, hf]
          · simp [shown, ho, ho', hfilter, hf]
          · simp [failed, ho, ho', hfilter, hf, halike]
      | some fault =>
          refine ⟨?_, ?_, ?_⟩
          · simp [answer, ho, ho', hfilter, hf]
          · simp [shown, ho, ho', hfilter, hf, halike]
          · simp [failed, ho, ho', hfilter, hf]

/-- Related rows come of related keys. -/
theorem forall₂_filterMap {α β : Type} {R : β → β → Prop} {f g : α → Option β} {l : List α}
    (h : ∀ x ∈ l, Option.Rel R (f x) (g x)) : List.Forall₂ R (l.filterMap f) (l.filterMap g) := by
  have hself : List.Forall₂ (fun x y => x = y ∧ x ∈ l) l l :=
    List.forall₂_same.mpr fun x hx => ⟨rfl, hx⟩
  refine List.rel_filterMap ?_ hself
  rintro x y ⟨rfl, hx⟩
  exact h x hx

/-- Reading a batch that is in both sights. -/
theorem Agrees.batch (h : look.Agrees look') (accepts : D.Fault → Bool) {batch : List D.Key}
    (hb : look.pending batch = []) (hb' : look'.pending batch = []) :
    look.answers accepts batch = look'.answers accepts batch ∧
      look.lacks accepts batch = look'.lacks accepts batch ∧
      List.Forall₂ Failure.Alike (batch.filterMap (look.shown accepts))
        (batch.filterMap (look'.shown accepts)) ∧
      List.Forall₂ Failure.Alike (batch.filterMap (look.failed accepts))
        (batch.filterMap (look'.failed accepts)) := by
  have hread : ∀ d ∈ batch, look.answer accepts d = look'.answer accepts d ∧
      Option.Rel Failure.Alike (look.shown accepts d) (look'.shown accepts d) ∧
      Option.Rel Failure.Alike (look.failed accepts d) (look'.failed accepts d) :=
    fun d hd => h.read accepts (pending_eq_nil.mp hb d hd) (pending_eq_nil.mp hb' d hd)
  refine ⟨?_, ?_, forall₂_filterMap fun d hd => (hread d hd).2.1,
    forall₂_filterMap fun d hd => (hread d hd).2.2⟩
  · unfold answers
    congr 1
    apply List.map_congr_left
    intro d hd
    rw [(hread d hd).1]
  · rw [Bool.eq_iff_iff, lacks, lacks, List.any_eq_true, List.any_eq_true]
    constructor
    · rintro ⟨d, hd, hm⟩
      exact ⟨d, hd, (hread d hd).1 ▸ hm⟩
    · rintro ⟨d, hd, hm⟩
      exact ⟨d, hd, (hread d hd).1 ▸ hm⟩

end Sight

/-- The consultations read the same and come to the same. -/
structure Consultation.Alike (c c' : Consultation D) : Prop where
  /-- The same batches. -/
  batches : c.batches = c'.batches
  /-- Failures that are alike were shown. -/
  shown : List.Forall₂ Failure.Alike c.shown c'.shown
  /-- Failures that are alike kept values from being there. -/
  failed : List.Forall₂ Failure.Alike c.failed c'.failed
  /-- The same keys had no outcome. -/
  pending : c.pending = c'.pending
  /-- The same end. -/
  upshot : c.upshot = c'.upshot

/-- A test that cannot tell related elements apart finds related elements. -/
theorem find?_forall₂ {α : Type} {R : α → α → Prop} {p : α → Bool}
    (hp : ∀ x y, R x y → p x = p y) {l l' : List α} (h : List.Forall₂ R l l') :
    Option.Rel R (l.find? p) (l'.find? p) := by
  induction h with
  | nil => exact .none
  | @cons x y l l' hhead _ ih =>
      rw [List.find?_cons, List.find?_cons, hp x y hhead]
      cases p y with
      | true => exact .some hhead
      | false => exact ih

/-- A declared failure is passed on from the first failure shown with its fault. -/
theorem Round.declaredFailure_eq (k : D.Key) (fault : D.Fault) (inv : Invocation D) :
    Round.declaredFailure k fault inv =
      (inv.shown.find? fun child => child.fault.any (D.sameFault · fault)).elim (.own k fault)
        (.passedOn k fault) := by
  have hfind (p : Failure D.Key D.Fault → Bool)
      (hp : ∀ child, p child = child.fault.any (D.sameFault · fault)) :
      inv.shown.find? (fun child => child.fault.any (D.sameFault · fault)) = inv.shown.find? p := by
    rw [funext hp]
  dsimp only [declaredFailure]
  rw [hfind]
  · split
    · rename_i h
      rw [h]
      rfl
    · rename_i h
      rw [h]
      rfl
  · intro child
    cases child.fault with
    | none => rfl
    | some _ => rfl

/-- Failures that were shown decide a declared failure up to likeness. -/
theorem Round.declaredFailure_alike (k : D.Key) (fault : D.Fault) {inv inv' : Invocation D}
    (h : List.Forall₂ Failure.Alike inv.shown inv'.shown) :
    (Round.declaredFailure k fault inv).Alike (Round.declaredFailure k fault inv') := by
  rw [declaredFailure_eq, declaredFailure_eq]
  have hsource : Option.Rel Failure.Alike
      (inv.shown.find? fun child => child.fault.any (D.sameFault · fault))
      (inv'.shown.find? fun child => child.fault.any (D.sameFault · fault)) := by
    apply find?_forall₂ _ h
    intro child child' halike
    rw [halike.fault]
  generalize inv.shown.find? _ = source, inv'.shown.find? _ = source' at hsource
  cases hsource with
  | some halike => exact halike.passedOn k fault
  | none => exact .refl _

/-- Consultations that are alike give outcomes that are alike. -/
theorem Consultation.Alike.outcome {c c' : Consultation D} (h : c.Alike c') {k : D.Key}
    {o : Outcome D} (ho : c.outcome? k = some o) :
    ∃ o', c'.outcome? k = some o' ∧ o.Alike o' := by
  unfold Consultation.outcome? at ho ⊢
  rw [← h.upshot, ← h.pending]
  cases hu : c.upshot with
  | value v =>
      rw [hu] at ho
      obtain rfl := Option.some.inj ho
      exact ⟨_, rfl, .refl _⟩
  | fault e =>
      rw [hu] at ho
      obtain rfl := Option.some.inj ho
      exact ⟨_, rfl, .failure (Round.declaredFailure_alike k e h.shown)⟩
  | broken =>
      rw [hu] at ho
      cases ho
  | lacking =>
      rw [hu] at ho
      simp only at ho ⊢
      split at ho
      · rename_i hp
        obtain rfl := Option.some.inj ho
        exact ⟨_, if_pos hp, .failure (.ofChildren k h.failed)⟩
      · cases ho

namespace Plan

variable {look look' : Sight D}

/-- On outcomes that are alike a plan reads the same and comes to the same. -/
theorem alike_of_agrees (h : look.Agrees look') (plan : Plan D)
    (hp : (plan.consult look).pending = []) (hp' : (plan.consult look').pending = []) :
    (plan.consult look).Alike (plan.consult look') := by
  induction plan with
  | value v => exact ⟨rfl, .nil, .nil, rfl, rfl⟩
  | fault e => exact ⟨rfl, .nil, .nil, rfl, rfl⟩
  | broken => exact ⟨rfl, .nil, .nil, rfl, rfl⟩
  | read batch accepts next ih =>
      have hb := pending_batch_eq_nil hp
      have hb' := pending_batch_eq_nil hp'
      obtain ⟨hanswers, hlacks, hshown, hfailed⟩ := h.batch accepts hb hb'
      cases hl : look.lacks accepts batch with
      | true =>
          rw [consult_of_lacks hl, consult_of_lacks (hlacks.symm.trans hl)]
          exact ⟨rfl, hshown, hfailed, hb.trans hb'.symm, rfl⟩
      | false =>
          have hl' := hlacks.symm.trans hl
          rw [consult_of_not_lacks hl] at hp ⊢
          rw [consult_of_not_lacks hl'] at hp' ⊢
          rw [← hanswers] at hp' ⊢
          have hrest := ih _ hp hp'
          exact ⟨congrArg (batch :: ·) hrest.batches, List.rel_append hshown hrest.shown,
            hrest.failed, hrest.pending, hrest.upshot⟩

/-- As long as outcomes are missing, a plan reads a beginning of what it reads on all of them. -/
theorem prefix_of_agrees (h : look.Agrees look') (plan : Plan D)
    (hp' : (plan.consult look').pending = []) :
    (plan.consult look).batches <+: (plan.consult look').batches := by
  induction plan with
  | value v => exact List.prefix_rfl
  | fault e => exact List.prefix_rfl
  | broken => exact List.prefix_rfl
  | read batch accepts next ih =>
      have hb' := pending_batch_eq_nil hp'
      cases hl : look.lacks accepts batch with
      | true => exact batches_prefix_of_lacks hl
      | false =>
          have hb : look.pending batch = [] :=
            Sight.pending_eq_nil.mpr fun d hd => (Sight.lacks_eq_false.mp hl d hd).1
          obtain ⟨hanswers, hlacks, -⟩ := h.batch accepts hb hb'
          have hl' := hlacks.symm.trans hl
          rw [consult_of_not_lacks hl]
          rw [consult_of_not_lacks hl'] at hp' ⊢
          rw [← hanswers] at hp' ⊢
          exact List.cons_prefix_cons.mpr ⟨rfl, ih _ hp'⟩

end Plan

end MemoGraph
