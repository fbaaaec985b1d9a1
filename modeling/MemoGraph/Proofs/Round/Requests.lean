import MemoGraph.Proofs.Round.Tasks

/-!
# What functions have requested

A key that a function requests can be read, or the function waits for it.  When the function runs
again all that it waited for has completed, so a function that ends with a value has requested
nothing, over all its invocations, that is not complete by then.
-/

set_option autoImplicit false

namespace MemoGraph

variable {D : Domain}

/-- Every requested key is complete or was met without an outcome. -/
def Invocation.Answered (inv : Invocation D) (g : Graph D) : Prop :=
  ∀ batch ∈ inv.batches, ∀ d ∈ batch, g.isComplete d = true ∨ d ∈ inv.awaited

namespace Round

variable {s : Setting D} {k : D.Key}

/-! ## One invocation -/

/-- A read that is not cut short finds a complete key, or one that the reader now waits for. -/
theorem answered_readOne {r : Round D} {inv : Invocation D} {accepts : D.Fault → Bool}
    {d : D.Key} (hi : r.interrupted = false) :
    r.graph.isComplete d = true ∨
      d ∈ (inv.note accepts d (r.readOne s k d).1).2.awaited := by
  cases ho : (r.graph.node d).settled? with
  | some o =>
      unfold Node.settled? at ho
      split at ho
      · rename_i hc
        exact .inl hc
      · cases ho
  | none =>
      right
      rw [readOne_of_unsettled k d hi ho, (inv.note_bookkeeping accepts d _).2]
      exact List.mem_append_right _ (List.mem_singleton.mpr rfl)

/-- The same for all keys of a batch, unless the round is to stop by the end of it. -/
theorem answered_readEach {accepts : D.Fault → Bool} {batch : List D.Key} {inv : Invocation D}
    {r : Round D} (hgo : (r.readEach s k accepts batch inv).2.2.interrupted = false) :
    (∀ d ∈ inv.awaited, d ∈ (r.readEach s k accepts batch inv).2.1.awaited) ∧
      ∀ d ∈ batch, r.graph.isComplete d = true ∨
        d ∈ (r.readEach s k accepts batch inv).2.1.awaited := by
  induction batch generalizing inv r with
  | nil => exact ⟨fun _ hd => hd, fun _ hd => absurd hd List.not_mem_nil⟩
  | cons dep rest ih =>
      have hrestgo : (readEach s k accepts rest (inv.note accepts dep (r.readOne s k dep).1).2
          (r.readOne s k dep).2).2.2.interrupted = false := hgo
      obtain ⟨hkept, hrest⟩ := ih hrestgo
      have hread := reads_readOne s r k dep
      have hnote := (inv.note_bookkeeping accepts dep (r.readOne s k dep).1).2
      have hi := (reads_readEach (s := s) (k := k) accepts (dep :: rest) inv r).going hgo
      refine ⟨fun d hd => hkept d ?_, fun d hd => ?_⟩
      · rw [hnote]
        exact List.mem_append_left _ hd
      · rcases List.mem_cons.mp hd with rfl | hd
        · exact (answered_readOne hi).imp id (hkept d)
        · rw [← hread.isComplete]
          exact hrest d hd

/-- In an invocation that is not cut short all requested keys are answered. -/
theorem answered_run {recipe : Recipe D} {inv : Invocation D} {r : Round D}
    (h : inv.Answered r.graph) (hgo : (recipe.run s k inv r).2.2.interrupted = false) :
    (recipe.run s k inv r).2.1.Answered r.graph := by
  induction recipe generalizing inv r with
  | value v => exact h
  | needsDeps => exact h
  | fault e => exact h
  | crash payload => exact h
  | read keys accepts next ih =>
      simp only [Recipe.run] at hgo ⊢
      let asked : Invocation D := { inv with batches := inv.batches ++ [keys] }
      have hreads := reads_readEach (s := s) (k := k) accepts keys asked r
      have hread : (r.readEach s k accepts keys asked).2.2.interrupted = false :=
        (reads_run _ _ _).going hgo
      obtain ⟨hkept, hnew⟩ := answered_readEach hread
      have hanswered : (r.readEach s k accepts keys asked).2.1.Answered
          (r.readEach s k accepts keys asked).2.2.graph := by
        intro batch hbatch d hd
        rw [hreads.isComplete]
        rw [batches_readEach] at hbatch
        rcases List.mem_append.mp hbatch with hbatch | hbatch
        · exact (h batch hbatch d hd).imp id (hkept d)
        · exact hnew d (List.mem_singleton.mp hbatch ▸ hd)
      have hrun := ih _ hanswered hgo
      intro batch hbatch d hd
      rw [← hreads.isComplete]
      exact hrun batch hbatch d hd
  | valuesMissing next ih => exact ih _ h hgo
  | isInterrupted next ih => exact ih _ h hgo
  | version next ih => exact ih _ h hgo
  | load slot next ih => exact ih _ h hgo
  | store slot content next ih => exact ih h hgo
  | interrupt next ih => exact ih h hgo

/-- A function that found no value missing has met only keys with outcomes. -/
theorem awaited_invoke_of_not_missing (f : Function D) (scratch : Option (Scratch D))
    (r : Round D) (h : (r.invoke s k f scratch).2.1.missing = false) :
    (r.invoke s k f scratch).2.1.awaited = [] := by
  refine run_induction (s := s) (k := k)
    (P := fun inv _ => inv.missing = false → inv.awaited = []) (fun _ _ _ h => h) ?_
    (fun _ _ _ h => h) (fun _ _ h => h) (f k (r.countCall s k).1) (fun _ => rfl) h
  intro accepts d inv r _ hinv hmissing
  rw [(inv.note_bookkeeping accepts d _).2]
  cases hreply : (r.readOne s k d).1 with
  | value v changedAt =>
      rw [hreply] at hmissing
      simpa [Reply.unsettled] using hinv hmissing
  | failed e changedAt =>
      rw [hreply] at hmissing
      simp only [Invocation.note] at hmissing
      split at hmissing
      · simpa [Reply.unsettled] using hinv hmissing
      · cases hmissing
  | pending enlisted =>
      rw [hreply] at hmissing
      cases hmissing
  | interrupted =>
      rw [hreply] at hmissing
      cases hmissing

theorem Invoked.answered {r : Round D} {t : Task D} {waiters : OrderedSet D.Key}
    {f : Function D} {ending : Ending D} {inv : Invocation D} {r₁ : Round D}
    (h : Invoked s r k t waiters f ending inv r₁) : inv.Answered r₁.graph := by
  have hstart : (Invocation.start t.scratch : Invocation D).Answered (r.countCall s k).2.graph :=
    fun batch hbatch => absurd hbatch List.not_mem_nil
  have hgo : (r.invoke s k f t.scratch).2.2.interrupted = false := by
    rw [h.run]
    exact h.going
  have hanswered : (r.invoke s k f t.scratch).2.1.Answered r.graph := answered_run hstart hgo
  rw [h.run] at hanswered
  intro batch hbatch d hd
  rw [h.reads.isComplete]
  exact hanswered batch hbatch d hd

/-! ## All invocations of a round -/

/-- What the function of the key requested so far is complete or awaited. -/
def Sought (g : Graph D) (_ : D.Key) (t : Task D) : Prop :=
  ∀ d ∈ t.requested.keys, g.isComplete d = true ∨ d ∈ t.awaited

theorem taskRule_sought (s : Setting D) : TaskRule s (Sought (D := D)) where
  frame {g g' k t t'} h hnode _ hrequested hawaited d hd := by
    rw [hrequested] at hd
    rw [hawaited, Graph.isComplete, hnode]
    exact h d hd
  begun _ _ _ d hd := absurd hd List.not_mem_nil
  settle hs _ _ h d hd := (h d hd).imp hs.isComplete_mono id

/-- After an invocation everything is still complete or awaited. -/
theorem sought_afterCall {r : Round D} (h : EachTask Sought r) {t : Task D}
    {waiters : OrderedSet D.Key} {f : Function D} {ending : Ending D} {inv : Invocation D}
    {r₁ : Round D} (hi : Invoked s r k t waiters f ending inv r₁) :
    Sought r₁.graph k (Task.afterCall { t with waiters := waiters } inv) := by
  intro d hd
  rcases DepGroups.mem_keys_pushAll.mp hd with hd | ⟨batch, hbatch, hd⟩
  · rw [hi.reads.isComplete]
    exact (h k t hi.task d hd).imp id fun hd => OrderedSet.mem_insertAll.mpr (.inl hd)
  · exact (hi.answered batch hbatch d hd).imp id fun hd => OrderedSet.mem_insertAll.mpr (.inr hd)

theorem sought_step {r r' : Round D} (h : EachTask Sought r)
    (ht : r.halted = true ∨ Tally r none 0 []) (hstep : r.step s = some r') :
    EachTask Sought r' := by
  refine EachTask.step (taskRule_sought s) h ht ?_ ?_ hstep
  · intro k rest t i group waiters seen r₁ _ hc d hd
    rw [hc.reads.isComplete]
    exact (h k t hc.task d hd).imp id fun hd => OrderedSet.mem_insertAll.mpr (.inl hd)
  · intro k rest t waiters f inv r₁ _ _ hi
    have hpop : EachTask Sought { r with queue := rest } := h
    exact sought_afterCall hpop hi

theorem sought_of_reaches {graph : Graph D} {calls : Table D.Key Nat} {r : Round D}
    (h : Reaches s (Round.start s graph calls) r) : EachTask Sought r := by
  induction h with
  | refl => exact EachTask.start (taskRule_sought s) graph calls
  | tail hr hstep ih => exact sought_step ih (tally_of_reaches hr) hstep

/-- When the function of a key ends with a value, all that it requested in the round is
complete. -/
theorem isComplete_of_requested {r : Round D} (h : EachTask Sought r) (ht : Tally r none 0 [])
    {rest : List D.Key} (hq : r.queue = k :: rest) {t : Task D} {waiters : OrderedSet D.Key}
    {f : Function D} {ending : Ending D} {inv : Invocation D} {r₁ : Round D}
    (hi : Invoked s { r with queue := rest } k t waiters f ending inv r₁)
    (hmissing : inv.missing = false) {d : D.Key}
    (hd : d ∈ (t.requested.pushAll inv.batches).keys) : r₁.graph.isComplete d = true := by
  rcases DepGroups.mem_keys_pushAll.mp hd with hd | ⟨batch, hbatch, hd⟩
  · -- Requested before: what was awaited has completed, or the key would not act.
    rw [hi.reads.isComplete]
    rcases h k t hi.task d hd with hc | hd
    · exact hc
    · exact (ht.pop hq hi.task).isComplete_of_awaited hi.task hd
  · -- Requested now: nothing was met without an outcome.
    have hnone := awaited_invoke_of_not_missing (s := s) (k := k) f t.scratch
      { r with queue := rest }
    rw [hi.run] at hnone
    rcases hi.answered batch hbatch d hd with hc | hd
    · exact hc
    · rw [hnone hmissing] at hd
      exact absurd hd List.not_mem_nil

end Round

end MemoGraph
