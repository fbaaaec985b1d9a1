import MemoGraph.Proofs.Round.Ground
import MemoGraph.Proofs.Round.Tasks

/-!
# What the check of a dirty key establishes

A key is found clean after all its recorded groups were read, one at a time and perhaps with long
waits in between.  The groups that were passed stay as they were read, since a complete key does not
change any more in its round.  So in the end every recorded dependency is complete and did not
change after the key was evaluated, which is what the outcome of the key relies on.
-/

set_option autoImplicit false

namespace MemoGraph

variable {D : Domain}

namespace Graph

/-- The dependency `d` is complete and did not change after `k` was evaluated. -/
def Unchanged (g : Graph D) (k d : D.Key) : Prop :=
  g.isComplete d = true ∧ (g.node d).changedAt ≤ (g.node k).evaluatedAt

theorem Unchanged.of_node {g g' : Graph D} {k d : D.Key} (h : g.Unchanged k d)
    (hk : (g'.node k).memo = (g.node k).memo) (hd : (g'.node d).memo = (g.node d).memo) :
    g'.Unchanged k d := by
  refine ⟨(Node.isComplete_of_memo_eq hd).trans h.1, ?_⟩
  rw [(Node.memo_eq_iff.mp hd).2.2.2.1, (Node.memo_eq_iff.mp hk).2.2.2.2]
  exact h.2

/-- Confirming a dirty key pays its debt if no dependency changed. -/
theorem Accounted.confirm {g : Graph D} {A : Account D} {k : D.Key} (h : g.Accounted A k)
    {version : Version} (hk : (g.node k).status = .dirty)
    (hdeps : ∀ d ∈ (g.node k).deps.keys, g.Unchanged k d) :
    (g.confirm k version).Accounted A k := by
  refine h.transfer (fun _ => ⟨.inr hk, ?_, ?_⟩) (fun d hd o hr => ?_)
  · rw [node_confirm, if_pos rfl]
    rfl
  · rw [node_confirm, if_pos rfl]
    rfl
  · obtain ⟨hc, hle⟩ := hdeps d hd
    have hdk : d ≠ k := by
      intro e
      rw [e, isComplete, Node.isComplete, hk] at hc
      simp at hc
    refine relies_of_complete ?_ ?_
    · rw [isComplete, node_confirm, if_neg hdk]
      exact hc
    · rw [node_confirm, if_neg hdk]
      exact hr.1 hle

end Graph

namespace Round

variable {s : Setting D}

/-! ## Reading a group -/

/-- Reading on takes nothing back. -/
theorem readGroup_mono (k : D.Key) (since : Version) (group : List D.Key)
    (seen : GroupReading D.Key) (r : Round D) :
    (seen.changed = true → (readGroup s k since group seen r).1.changed = true) ∧
      (∀ d ∈ seen.waiting, d ∈ (readGroup s k since group seen r).1.waiting) ∧
        (seen.cut = true → (readGroup s k since group seen r).1.cut = true) := by
  refine readGroup_induction (P := fun seen' _ =>
    (seen.changed = true → seen'.changed = true) ∧ (∀ d ∈ seen.waiting, d ∈ seen'.waiting) ∧
      (seen.cut = true → seen'.cut = true)) ?_ group ⟨id, fun _ hd => hd, id⟩
  intro dep seen' r' ⟨hchanged, hwaiting, hcut⟩
  cases (r'.readOne s k dep).1 with
  | value v changedAt =>
      exact ⟨fun h => by simp [GroupReading.note, hchanged h], hwaiting, hcut⟩
  | failed e changedAt =>
      exact ⟨fun h => by simp [GroupReading.note, hchanged h], hwaiting, hcut⟩
  | pending enlisted =>
      exact ⟨hchanged, fun d hd => List.mem_append_left _ (hwaiting d hd), hcut⟩
  | interrupted => exact ⟨hchanged, hwaiting, fun _ => rfl⟩

/-- After a reading that was not cut, every key of the group is waited for, or it is complete and
its change, if it is later than `since`, was noticed. -/
theorem read_of_mem_group {k : D.Key} {since : Version} {group : List D.Key}
    {seen : GroupReading D.Key} {r : Round D}
    (hcut : (readGroup s k since group seen r).1.cut = false) {d : D.Key} (hd : d ∈ group) :
    d ∈ (readGroup s k since group seen r).1.waiting ∨ (r.graph.isComplete d = true ∧
      (since < (r.graph.node d).changedAt →
        (readGroup s k since group seen r).1.changed = true)) := by
  induction group generalizing seen r with
  | nil => exact absurd hd List.not_mem_nil
  | cons dep rest ih =>
      have hreads := reads_readOne s r k dep
      rcases List.mem_cons.mp hd with rfl | hd
      · obtain ⟨hchanged, hwaiting, hcutmono⟩ := readGroup_mono (s := s) k since rest
          (seen.note since d (r.readOne s k d).1) (r.readOne s k d).2
        cases hi : r.interrupted with
        | true =>
            -- Then the reading would have been cut.
            rw [readOne_of_interrupted k d hi] at hcutmono
            simp only [readGroup, readOne_of_interrupted k d hi] at hcut
            rw [hcutmono rfl] at hcut
            exact Bool.noConfusion hcut
        | false =>
            cases ho : (r.graph.node d).settled? with
            | none =>
                left
                apply hwaiting
                rw [readOne_of_unsettled k d hi ho]
                exact List.mem_append_right _ List.mem_cons_self
            | some o =>
                right
                refine ⟨?_, fun hlt => hchanged ?_⟩
                · cases hc : r.graph.isComplete d with
                  | true => rfl
                  | false =>
                      have hc' : (r.graph.node d).isComplete = false := hc
                      simp [Node.settled?, hc'] at ho
                · rw [readOne_of_settled k d hi ho]
                  cases o with
                  | value v => simp [GroupReading.note, hlt]
                  | failure e => simp [GroupReading.note, hlt]
      · have hcutrest : (readGroup s k since rest (seen.note since dep (r.readOne s k dep).1)
            (r.readOne s k dep).2).1.cut = false := hcut
        have hrest := ih hcutrest hd
        rw [hreads.isComplete, hreads.node] at hrest
        exact hrest

/-- Keys that a reading waits for belong to the group. -/
theorem mem_group_of_waiting {k : D.Key} {since : Version} {group : List D.Key} {r : Round D}
    {d : D.Key} (hd : d ∈ (readGroup s k since group .start r).1.waiting) : d ∈ group := by
  have hall (group : List D.Key) (seen : GroupReading D.Key) (r : Round D)
      (hd : d ∈ (readGroup s k since group seen r).1.waiting) : d ∈ seen.waiting ∨ d ∈ group := by
    induction group generalizing seen r with
    | nil => exact .inl hd
    | cons dep rest ih =>
        rcases ih _ _ hd with h | h
        · rw [(seen.note_bookkeeping since dep _).2, List.mem_append] at h
          exact h.imp id fun h => List.mem_cons.mpr (.inl (Reply.eq_of_mem_unsettled h))
        · exact .inr (List.mem_cons_of_mem dep h)
  exact (hall group .start r hd).resolve_left List.not_mem_nil

/-! ## Tasks that check -/

/-- The function of a key that is being checked was not invoked yet, and every group before the next
one holds unchanged dependencies. -/
def Passing (g : Graph D) (k : D.Key) (t : Task D) : Prop :=
  ∀ i, t.mode = .check i → t.requested = ∅ ∧ ∀ j group, j < i →
    (g.node k).deps.group? j = some group → ∀ d ∈ group, g.Unchanged k d

theorem taskRule_passing (s : Setting D) : TaskRule s (Passing (D := D)) where
  frame h hnode hmode hrequested _ i hm := by
    obtain ⟨hreq, hpassed⟩ := h i (hmode ▸ hm)
    refine ⟨hrequested.trans hreq, fun j group hj hg d hd => ?_⟩
    rw [hnode] at hg
    exact (hpassed j group hj hg d hd).of_node (by rw [hnode]) (by rw [hnode])
  begun g k _ i hm := by
    simp only [Task.start] at hm
    split at hm
    · obtain rfl := Mode.check.inj hm
      exact ⟨rfl, fun j _ hj => absurd hj (Nat.not_lt_zero j)⟩
    · cases hm
  settle {c g g' k t} hs hc hk h i hm := by
    obtain ⟨hreq, hpassed⟩ := h i hm
    refine ⟨hreq, fun j group hj hg d hd => ?_⟩
    rw [(Node.memo_eq_iff.mp (hs.others k hk)).2.2.1] at hg
    have hold := hpassed j group hj hg d hd
    have hdc : d ≠ c := by
      intro e
      rw [← e, hold.1] at hc
      exact Bool.noConfusion hc
    exact hold.of_node (hs.others k hk) (hs.others d hdc)

/-- What is known of keys that are being checked. -/
def Checks (r : Round D) : Prop := EachTask Passing r

namespace Checks

variable {r r' : Round D}

theorem unasked (h : Checks r) {k : D.Key} {t : Task D} {i : Nat}
    (ht : r.tasks.get? k = some t) (hm : t.mode = .check i) : t.requested = ∅ :=
  (h k t ht i hm).1

/-- The group that a key has just read. -/
theorem checked (h : Checks r) {k : D.Key} {t : Task D} {i : Nat} {group : List D.Key}
    {waiters : OrderedSet D.Key} {seen : GroupReading D.Key}
    (hc : Checked s r k t i group waiters seen r') :
    Passing r'.graph k (Task.afterGroup { t with waiters := waiters } i seen) := by
  obtain ⟨hreq, hpassed⟩ := h k t hc.task i hc.mode
  intro i' hm
  refine ⟨hreq, fun j group' hj hg d hd => ?_⟩
  have hold (hj : j < i) : r'.graph.Unchanged k d := by
    refine ((hpassed j group' hj ?_) d hd).of_node (by rw [hc.reads.node]) (by rw [hc.reads.node])
    rwa [hc.reads.node] at hg
  simp only [Task.afterGroup, GroupReading.nextMode] at hm
  split at hm
  · cases hm
  · rename_i hchanged
    split at hm
    · rename_i hwaiting
      obtain rfl := Mode.check.inj hm
      rcases Nat.lt_succ_iff_lt_or_eq.mp hj with hj | rfl
      · exact hold hj
      · -- The group at position `i` itself: all of it was read, and no change was noticed.
        have hgroup : group' = group := by
          rw [hc.reads.node, hc.listed] at hg
          exact (Option.some.inj hg).symm
        subst hgroup
        have huncut : (readGroup s k (r.graph.node k).evaluatedAt group' .start r).1.cut =
            false := by
          rw [hc.read]
          exact hc.uncut
        have hread := read_of_mem_group huncut hd
        rw [hc.read] at hread
        rcases hread with hw | ⟨hcomplete, hlt⟩
        · rw [List.isEmpty_iff.mp hwaiting] at hw
          exact absurd hw List.not_mem_nil
        · rw [Graph.Unchanged, hc.reads.isComplete, hc.reads.node, hc.reads.node]
          exact ⟨hcomplete, Nat.le_of_not_lt fun h => hchanged (hlt h)⟩
    · obtain rfl := Mode.check.inj hm
      exact hold hj

/-- A key that has passed all its groups has unchanged dependencies only. -/
theorem unchanged (h : Checks r) {k : D.Key} {t : Task D} {i : Nat}
    (ht : r.tasks.get? k = some t) (hm : t.mode = .check i)
    (hend : (r.graph.node k).deps.group? i = none) :
    ∀ d ∈ (r.graph.node k).deps.keys, r.graph.Unchanged k d := by
  intro d hd
  obtain ⟨group, hgroup, hd⟩ := List.mem_flatten.mp hd
  obtain ⟨j, hj, hget⟩ := List.mem_iff_getElem.mp hgroup
  have hle : (r.graph.node k).deps.groups.length ≤ i := List.getElem?_eq_none_iff.mp hend
  refine (h k t ht i hm).2 j group (Nat.lt_of_lt_of_le hj hle) ?_ d hd
  rw [DepGroups.group?, List.getElem?_eq_getElem hj, hget]

/-- Every step keeps what is known of keys that are being checked. -/
theorem step (h : Checks r) (ht : r.halted = true ∨ Tally r none 0 [])
    (hstep : r.step s = some r') : Checks r' := by
  refine EachTask.step (taskRule_passing s) h ht ?_ ?_ hstep
  · intro k rest t i group waiters seen r₁ _ hc
    have hpop : Checks { r with queue := rest } := h
    exact hpop.checked hc
  · intro k rest t waiters f inv r₁ _ _ hi i hm
    cases hi.mode.symm.trans hm

/-- No key is being checked before the round begins. -/
theorem of_reaches {graph : Graph D} {calls : Table D.Key Nat}
    (h : Reaches s (Round.start s graph calls) r) : Checks r := by
  induction h with
  | refl => exact EachTask.start (taskRule_passing s) graph calls
  | tail hr hstep ih => exact ih.step (tally_of_reaches hr) hstep

end Checks

end Round

end MemoGraph
