import MemoGraph.Proofs.Round.Justified
import MemoGraph.Proofs.Round.Stale

/-!
# Orders of work

A round takes queued keys first in, first out, but nothing rests on that: `Turn` lets any queued key
act next.  A turn is a step of the same round with its queue rearranged, and the invariants of
rounds do not look at the order of the queue.  So they hold in every state that turns lead to.
-/

set_option autoImplicit false

namespace MemoGraph

variable {D : Domain}

namespace Round

variable {s : Setting D} {r r' : Round D} {g : Graph D}

/-- Some queued key, wherever it stands in the queue, takes its next action. -/
inductive Turn (s : Setting D) (r : Round D) : Round D → Prop where
  /-- the key `k` -/
  | act {before after : List D.Key} {k : D.Key} : r.queue = before ++ k :: after →
      r.halted = false →
      Turn s r (({ r with queue := before ++ after } : Round D).process s k)

/-- The second round is reached from the first by turns, so without breaking a cycle. -/
def Unfolds (s : Setting D) : Round D → Round D → Prop := Relation.ReflTransGen (Turn s)

/-- A turn is a step after the queue was rearranged. -/
theorem Turn.step (h : Turn s r r') : ∃ queue, queue.Perm r.queue ∧
    ({ r with queue := queue } : Round D).step s = some r' := by
  cases h with
  | @act before after k hq hh =>
      refine ⟨k :: (before ++ after), hq ▸ List.perm_middle.symm, ?_⟩
      have hgo : ({ r with queue := before ++ after } : Round D).halted = false := hh
      simp only [Round.step, hgo, Bool.false_eq_true, if_false]

/-- A step that breaks no cycle is a turn, unless the round is to stop. -/
theorem turn_of_step (hh : r.halted = false) (hstep : r.step s = some r')
    (hcycles : r'.cycles = r.cycles) : Turn s r r' := by
  have hadvance := advance_of_step hstep
  cases hadvance with
  | skipped _ hstop => exact absurd (hh.symm.trans hstop) Bool.false_ne_true
  | broken _ _ _ hheld =>
      rw [cycles_failMembers] at hcycles
      exact absurd (List.append_right_eq_self.mp hcycles) hheld
  | @acted k rest _ hq _ _ =>
      have hgo : ({ r with queue := rest } : Round D).halted = false := hh
      simp only [Round.step, hq, hgo, Bool.false_eq_true, if_false, Option.some.injEq] at hstep
      rw [← hstep]
      have hfront : r.queue = [] ++ k :: rest := hq
      exact .act hfront hh

/-- A round that is not halted in the end was never halted. -/
theorem halted_of_reaches (h : Reaches s r r') (hh : r'.halted = false) : r.halted = false := by
  induction h using Relation.ReflTransGen.head_induction_on with
  | refl => exact hh
  | @head r₀ _ hstep _ ih =>
      cases hstop : r₀.halted with
      | false => rfl
      | true => exact absurd (ih.symm.trans (halted_step hstop hstep)) Bool.false_ne_true

/-- A round that ended without being halted, and that broke no cycle, is a sequence of turns. -/
theorem unfolds_of_reaches (h : Reaches s r r') (hh : r'.halted = false)
    (hcycles : r'.cycles = []) : Unfolds s r r' := by
  have hnone {r₀ : Round D} (h₀ : Reaches s r₀ r') : r₀.cycles = [] :=
    List.prefix_nil.mp (hcycles ▸ cycles_of_reaches h₀)
  induction h using Relation.ReflTransGen.head_induction_on with
  | refl => exact .refl
  | @head r₀ _ hstep hrest ih =>
      have hwhole : Reaches s r₀ r' := .head hstep hrest
      exact ih.head (turn_of_step (halted_of_reaches hwhole hh) hstep
        ((hnone hrest).trans (hnone hwhole).symm))

/-! ## Rebuilding all of a changed group -/

/-- A dirty key is rebuilt because of its first changed group, all of which is complete or
awaited. -/
def Outdated (g : Graph D) (k : D.Key) (t : Task D) : Prop :=
  t.mode = .rebuild → (g.node k).status = .dirty → ∃ i, g.FirstChanged k i ∧
    ∀ group, (g.node k).deps.group? i = some group →
      ∀ d ∈ group, g.isComplete d = true ∨ d ∈ t.awaited

theorem taskRule_outdated (s : Setting D) : TaskRule s (Outdated (D := D)) where
  frame h hnode hmode _ hawaited hm hdirty := by
    rw [hnode] at hdirty
    obtain ⟨i, hfirst, hall⟩ := h (hmode ▸ hm) hdirty
    refine ⟨i, hfirst.of_memo (by rw [hnode]) fun d _ => by rw [hnode], fun group hgroup d hd => ?_⟩
    rw [hnode] at hgroup
    rw [Graph.isComplete, hnode, hawaited]
    exact hall group hgroup d hd
  begun g k _ hm hdirty := by
    rw [Task.start, if_pos hdirty] at hm
    cases hm
  settle {c g g' k t} hs hc hk h hm hdirty := by
    obtain ⟨hstatus, -, hdeps, -⟩ := Node.memo_eq_iff.mp (hs.others k hk)
    rw [hstatus] at hdirty
    obtain ⟨i, hfirst, hall⟩ := h hm hdirty
    refine ⟨i, hfirst.of_memo (hs.others k hk) fun d hd => hs.others d fun e => ?_,
      fun group hgroup d hd => ?_⟩
    · rw [e, hc] at hd
      cases hd
    · rw [hdeps] at hgroup
      exact (hall group hgroup d hd).imp_left hs.isComplete_mono

theorem outdated_step (h : EachTask Outdated r) (hchecks : Checks r)
    (ht : r.halted = true ∨ Tally r none 0 []) (hstep : r.step s = some r') :
    EachTask Outdated r' := by
  refine EachTask.step (taskRule_outdated s) h ht ?_ ?_ hstep
  · intro k rest t i group waiters seen r₁ _ hc hm _
    have hpop : Checks { r with queue := rest } := hchecks
    have hseen : seen.changed = true := GroupReading.changed_of_nextMode hm
    refine ⟨i, (hpop.firstChanged hc hseen).of_memo (by rw [hc.reads.node])
      fun d _ => by rw [hc.reads.node], fun group' hgroup d hd => ?_⟩
    rw [hc.reads.node, hc.listed] at hgroup
    obtain rfl := Option.some.inj hgroup
    have hcut : (readGroup s k (({ r with queue := rest } : Round D).graph.node k).evaluatedAt
        group .start { r with queue := rest }).1.cut = false := by
      rw [hc.read]
      exact hc.uncut
    have hread := read_of_mem_group hcut hd
    rw [hc.read] at hread
    rw [hc.reads.isComplete]
    exact hread.symm.imp And.left fun hw => OrderedSet.mem_insertAll.mpr (.inr hw)
  · intro k rest t waiters f inv r₁ _ _ hi _ hdirty
    rw [hi.reads.node] at hdirty
    obtain ⟨i, hfirst, hall⟩ := h k t hi.task hi.mode hdirty
    refine ⟨i, hfirst.of_memo (by rw [hi.reads.node]) fun d _ => by rw [hi.reads.node],
      fun group hgroup d hd => ?_⟩
    rw [hi.reads.node] at hgroup
    rw [hi.reads.isComplete]
    exact (hall group hgroup d hd).imp_right fun hd => OrderedSet.mem_insertAll.mpr (.inl hd)

/-! ## What holds in any order -/

/-- The number of signals does not depend on the order of the queue. -/
theorem Tally.shuffle (h : Tally r none 0 []) {queue : List D.Key} (hq : queue.Perm r.queue) :
    Tally { r with queue := queue } none 0 [] :=
  { h with
    queued := fun x t hx ha hb => (h.queued x t hx ha hb).imp_left hq.mem_iff.mpr
    working := fun x hx => h.working x (hq.mem_iff.mp hx)
    nodup := hq.nodup_iff.mpr h.nodup
    acting := fun x hb => by cases hb }

/-- What holds in every state of a round over the graph `g`, whatever the order of work. -/
structure Standing (s : Setting D) (g : Graph D) (r : Round D) : Prop where
  /-- Signals are accounted for. -/
  tally : r.halted = true ∨ Tally r none 0 []
  /-- The graph is grounded. -/
  grounded : Grounded s r
  /-- Groups that were passed are unchanged. -/
  checks : Checks r
  /-- What was requested is complete or awaited. -/
  sought : EachTask Sought r
  /-- Functions follow their plans. -/
  asked : Asked s r
  /-- Dirty keys are rebuilt for a reason. -/
  outdated : EachTask Outdated r
  /-- Keys were committed once or are as they were. -/
  atomic : Atomic g r
  /-- No root is forgotten. -/
  known : ∀ root ∈ s.roots, r.Known root

namespace Standing

theorem shuffle (h : Standing s g r) {queue : List D.Key} (hq : queue.Perm r.queue) :
    Standing s g { r with queue := queue } where
  tally := h.tally.imp_right fun ht => ht.shuffle hq
  grounded := { h.grounded with }
  checks := h.checks
  sought := h.sought
  asked := h.asked
  outdated := h.outdated
  atomic := { h.atomic with }
  known := h.known

theorem step (h : Standing s g r) (hstep : r.step s = some r') : Standing s g r' where
  tally := Tally.step h.tally hstep
  grounded := h.grounded.step h.tally hstep
  checks := h.checks.step h.tally hstep
  sought := sought_step h.sought h.tally hstep
  asked := h.asked.step h.tally hstep
  outdated := outdated_step h.outdated h.checks h.tally hstep
  atomic := h.atomic.course (course_of_step h.checks h.sought h.tally hstep)
  known root hroot := Tally.known_step h.tally hstep (h.known root hroot)

theorem turn (h : Standing s g r) (hturn : Turn s r r') : Standing s g r' := by
  obtain ⟨queue, hq, hstep⟩ := hturn.step
  exact (h.shuffle hq).step hstep

theorem start (hg : g.Grounded s.version) (hb : g.Before s.version) (calls : Table D.Key Nat) :
    Standing s g (Round.start s g calls) where
  tally := .inr (tally_start g calls)
  grounded := .start hg hb calls
  checks := EachTask.start (taskRule_passing s) g calls
  sought := EachTask.start (taskRule_sought s) g calls
  asked := EachTask.start (taskRule_asks s) g calls
  outdated := EachTask.start (taskRule_outdated s) g calls
  atomic := .of_reaches (.refl : Reaches s _ (Round.start s g calls))
  known _ := known_root_of_reaches (.refl : Reaches s _ (Round.start s g calls))

theorem of_unfolds (hg : g.Grounded s.version) (hb : g.Before s.version)
    {calls : Table D.Key Nat} (h : Unfolds s (Round.start s g calls) r) : Standing s g r := by
  induction h with
  | refl => exact start hg hb calls
  | tail _ hturn ih => exact ih.turn hturn

end Standing

end Round

end MemoGraph
