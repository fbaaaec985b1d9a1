import MemoGraph.Proofs.Round.Reading

/-!
# Accesses to the state of a key

A function looks into its state and replaces it through slots, and the state is in one slot at a
time.  `Recipe.accesses` lists what an invocation does with the state, in order.  The list is
threaded: each access yields what the one before it left, if that was in the same slot, and a blank
cell otherwise.
-/

set_option autoImplicit false

namespace MemoGraph

variable {D : Domain}

/-- One access to the state kept between invocations. -/
structure Access (D : Domain) where
  /-- The slot. -/
  slot : D.Slot
  /-- What the slot contains when it is accessed. -/
  yielded : D.Cell slot
  /-- What the function puts there, if it puts something there. -/
  stored : Option (D.Cell slot)

namespace Access

/-- The state after an access. -/
def leaves (a : Access D) : Scratch D := ⟨a.slot, a.stored.getD a.yielded⟩

/-- An access to the given state yields its content if it is in the same slot, and a blank cell
otherwise. -/
def Yields (a : Access D) (state : Option (Scratch D)) : Prop :=
  (∀ content, state = some ⟨a.slot, content⟩ → a.yielded = content) ∧
    ((∀ content, state ≠ some ⟨a.slot, content⟩) → a.yielded = D.blank a.slot)

/-- The accesses lead from the first state to the second, each one beginning with what the one
before it left. -/
def Threads (before : Option (Scratch D)) : List (Access D) → Option (Scratch D) → Prop
  | [], after => after = before
  | a :: rest, after => a.Yields before ∧ Threads (some a.leaves) rest after

end Access

/-- The accesses of an invocation to the state of its key. -/
def Recipe.accesses (s : Setting D) (k : D.Key) :
    Recipe D → Invocation D → Round D → List (Access D)
  | .value _, _, _ => []
  | .needsDeps, _, _ => []
  | .fault _, _, _ => []
  | .crash _, _, _ => []
  | .read batch accepts next, inv, r =>
      let inv := { inv with batches := inv.batches ++ [batch] }
      let (answers, inv, r) := r.readEach s k accepts batch inv
      (next (.ofList answers)).accesses s k inv r
  | .valuesMissing next, inv, r => (next inv.missing).accesses s k inv r
  | .isInterrupted next, inv, r => (next r.interrupted).accesses s k inv r
  | .version next, inv, r => (next s.version).accesses s k inv r
  | .load slot next, inv, r =>
      let content := inv.content slot
      { slot := slot, yielded := content, stored := none } ::
        (next content).accesses s k { inv with scratch := some ⟨slot, content⟩ } r
  | .store slot content next, inv, r =>
      { slot := slot, yielded := inv.content slot, stored := some content } ::
        next.accesses s k { inv with scratch := some ⟨slot, content⟩ } r
  | .interrupt next, inv, r => next.accesses s k inv { r with interrupted := true }

/-- The content of a slot is what an access to it yields. -/
theorem Invocation.yields_content (inv : Invocation D) (slot : D.Slot)
    (stored : Option (D.Cell slot)) :
    Access.Yields { slot := slot, yielded := inv.content slot, stored := stored } inv.scratch := by
  unfold content
  refine ⟨fun content h => ?_, fun h => ?_⟩
  · rw [h]
    exact dif_pos rfl
  · cases hs : inv.scratch with
    | none => rfl
    | some state =>
        obtain ⟨last, content⟩ := state
        refine dif_neg ?_
        rintro rfl
        exact h content hs

@[simp] theorem Invocation.scratch_note (inv : Invocation D) (accepts : D.Fault → Bool)
    (dep : D.Key) (reply : Reply D) : (inv.note accepts dep reply).2.scratch = inv.scratch := by
  cases reply with
  | failed e changedAt =>
      simp only [note]
      split
      · rfl
      · rfl
  | _ => rfl

/-- Reading leaves the state alone. -/
theorem Round.scratch_readEach {s : Setting D} {k : D.Key} (accepts : D.Fault → Bool)
    (batch : List D.Key) (inv : Invocation D) (r : Round D) :
    (r.readEach s k accepts batch inv).2.1.scratch = inv.scratch :=
  readEach_induction (P := fun inv' _ => inv'.scratch = inv.scratch)
    (fun dep _ inv' _ h => (inv'.scratch_note accepts dep _).trans h) rfl

/-- The accesses of an invocation lead from the state that it finds to the state that it leaves. -/
theorem Recipe.threads_accesses {s : Setting D} {k : D.Key} (recipe : Recipe D)
    (inv : Invocation D) (r : Round D) :
    Access.Threads inv.scratch (recipe.accesses s k inv r) (recipe.run s k inv r).2.1.scratch := by
  induction recipe generalizing inv r with
  | value v => exact rfl
  | needsDeps => exact rfl
  | fault e => exact rfl
  | crash payload => exact rfl
  | read batch accepts next ih =>
      let requested : Invocation D := { inv with batches := inv.batches ++ [batch] }
      let read := r.readEach s k accepts batch requested
      have hread : read.2.1.scratch = inv.scratch :=
        Round.scratch_readEach accepts batch requested r
      have hrest := ih (.ofList read.1) read.2.1 read.2.2
      rw [hread] at hrest
      exact hrest
  | valuesMissing next ih => exact ih _ inv r
  | isInterrupted next ih => exact ih _ inv r
  | version next ih => exact ih _ inv r
  | load slot next ih =>
      exact ⟨inv.yields_content slot none,
        ih (inv.content slot) { inv with scratch := some ⟨slot, inv.content slot⟩ } r⟩
  | store slot content next ih =>
      exact ⟨inv.yields_content slot (some content),
        ih { inv with scratch := some ⟨slot, content⟩ } r⟩
  | interrupt next ih => exact ih inv _

end MemoGraph
