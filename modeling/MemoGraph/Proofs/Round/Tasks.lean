import MemoGraph.Proofs.Round.Progress

/-!
# Properties of tasks

Much of what is known in the middle of a round is known of each task by itself: of the mode it is
in, of what its function requested and of what it waits for.  Such a property lasts through the
round if every task begins with it, if completions of other keys keep it, and if the two actions
that change a task restore it: reading a recorded group, and an invocation that waits.
-/

set_option autoImplicit false

namespace MemoGraph

variable {D : Domain}

namespace Round

variable {s : Setting D}

/-- What does not depend on the action that a task takes. -/
structure TaskRule (s : Setting D) (Q : Graph D → D.Key → Task D → Prop) : Prop where
  /-- Only nodes count, and of the task only its mode, requests and awaited keys. -/
  frame : ∀ {g g' : Graph D} {k : D.Key} {t t' : Task D}, Q g k t → (∀ x, g'.node x = g.node x) →
    t'.mode = t.mode → t'.requested = t.requested → t'.awaited = t.awaited → Q g' k t'
  /-- Every task begins with the property. -/
  begun : ∀ (g : Graph D) (k : D.Key), g.isComplete k = false →
    Q g k (Task.start (g.node k).status)
  /-- The completion of another key keeps it. -/
  settle : ∀ {c : D.Key} {g g' : Graph D} {k : D.Key} {t : Task D},
    Graph.Settles s.version c g g' → g.isComplete c = false → k ≠ c → Q g k t → Q g' k t

/-- Every task has the property. -/
def EachTask (Q : Graph D → D.Key → Task D → Prop) (r : Round D) : Prop :=
  ∀ k t, r.tasks.get? k = some t → Q r.graph k t

namespace EachTask

variable {Q : Graph D → D.Key → Task D → Prop} {r r' : Round D}

theorem reads (hQ : TaskRule s Q) (h : EachTask Q r) (hr : Reads r r') : EachTask Q r' := by
  intro k t' ht'
  cases ht : r.tasks.get? k with
  | none =>
      obtain ⟨hk, waiters, rfl⟩ := hr.begun k t' ht ht'
      exact hQ.frame (hQ.begun r.graph k hk) hr.node rfl rfl rfl
  | some t =>
      obtain ⟨waiters, hkept⟩ := hr.kept k t ht
      obtain rfl := Option.some.inj (ht'.symm.trans hkept)
      exact hQ.frame (h k t ht) hr.node rfl rfl rfl

theorem retask (hQ : TaskRule s Q) (h : EachTask Q r) {k : D.Key} {t : Task D}
    (ht : Q r.graph k t) (active : Bool) (queue : List D.Key) :
    EachTask Q
      { r with tasks := r.tasks.insert k { t with active := active }, queue := queue } := by
  intro x t' hx
  rcases Table.get?_insert_eq_some_iff.mp hx with ⟨rfl, rfl⟩ | ⟨-, hx⟩
  · exact hQ.frame ht (fun _ => rfl) rfl rfl rfl
  · exact h x t' hx

theorem complete (hQ : TaskRule s Q) (h : EachTask Q r) {k : D.Key} {how : Completion}
    (hc : Completes s k how r r') (hs : Graph.Settles s.version k r.graph r'.graph)
    (hk : r.graph.isComplete k = false) : EachTask Q r' := by
  intro x t ht
  obtain ⟨hxk, t₀, ht₀, hmode, hrequested, hawaited⟩ := hc.back ht
  exact hQ.frame (hQ.settle hs hk hxk (h x t₀ ht₀)) (fun _ => rfl) hmode hrequested hawaited

/-- A step keeps a property of tasks if the two actions that change a task restore it. -/
theorem step (hQ : TaskRule s Q) (h : EachTask Q r) (ht : r.halted = true ∨ Tally r none 0 [])
    (checked : ∀ {k rest t i group waiters seen r₁}, r.queue = k :: rest →
      Checked s { r with queue := rest } k t i group waiters seen r₁ →
        Q r₁.graph k (Task.afterGroup { t with waiters := waiters } i seen))
    (waiting : ∀ {k rest t waiters f inv r₁}, r.queue = k :: rest →
      Tally r none 0 [] → Invoked s { r with queue := rest } k t waiters f .needsDeps inv r₁ →
        Q r₁.graph k (Task.afterCall { t with waiters := waiters } inv))
    (hstep : r.step s = some r') : EachTask Q r' := by
  cases advance_of_step hstep with
  | skipped _ _ => exact h
  | @acted k rest r' hq hh hm =>
      have htally := ht.resolve_left (by simp [hh])
      have hpop : EachTask Q { r with queue := rest } := h
      cases hm with
      | idle _ => exact hpop
      | verified htask _ _ =>
          exact hpop.complete hQ (completes_clean s _ k) (settles_completeClean s _ k)
            (htally.unfinished k _ htask)
      | checked hc =>
          obtain ⟨active, queue, he⟩ := concludeGroup_frame _ k _ _ _
          rw [he]
          exact (hpop.reads hQ hc.reads).retask hQ (checked hq hc) active queue
      | dropped hd => exact hpop.reads hQ hd.reads
      | lost hl =>
          have hread := hpop.reads hQ hl.reads
          exact hread
      | built hi _ =>
          have hk := htally.unfinished_of_reads hi.reads hi.task
          obtain ⟨how, -, -, hbuilt⟩ := completes_built s _ k _ _
          exact (hpop.reads hQ hi.reads).complete hQ hbuilt (settles_completeBuilt _ _ hk) hk
      | failed hi =>
          have hk := htally.unfinished_of_reads hi.reads hi.task
          exact (hpop.reads hQ hi.reads).complete hQ (completes_failed s _ k _ _)
            (settles_completeFailed _ _ hk) hk
      | blocked hi _ _ _ _ =>
          have hk := htally.unfinished_of_reads hi.reads hi.task
          exact (hpop.reads hQ hi.reads).complete hQ (completes_failed s _ k _ _)
            (settles_completeFailed _ _ hk) hk
      | waiting hi _ _ =>
          obtain ⟨active, queue, he⟩ := resumeOrPark_eq _ k _
          rw [he]
          exact (hpop.reads hQ hi.reads).retask hQ (waiting hq htally hi) active queue
  | broken _ hh _ _ =>
      have htally := ht.resolve_left (by simp [hh])
      exact (htally.failMembers_induction _ (P := EachTask Q) h
        fun h₁ _ hf => h₁.complete hQ hf.completes hf.settles hf.incomplete).2

/-- No key has a task before the round begins. -/
theorem start (hQ : TaskRule s Q) (graph : Graph D) (calls : Table D.Key Nat) :
    EachTask Q (Round.start s graph calls) := by
  refine start_induction (P := EachTask Q) (fun k t ht => ?_) fun k _ r h =>
    h.reads hQ (reads_demand s r k)
  cases ht

end EachTask

end Round

end MemoGraph
