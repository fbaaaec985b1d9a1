import MemoGraph.Proofs.Round.Blame
import MemoGraph.Proofs.Round.Commits
import MemoGraph.Proofs.Round.Ending

/-!
# Rounds that are asked to stop

The wish to stop can come up while a function runs and whenever the observer is told of something.
From then on every read is refused and no key acts, so the round ends with the graph it has.  What
was going on when the wish came up is dropped: the function that was running commits nothing, unless
its crash is reported, and the key whose recorded group was being read is left waiting.
-/

set_option autoImplicit false

namespace MemoGraph

variable {D : Domain}

/-- One reading of a recorded group of a dirty key. -/
structure Recheck (D : Domain) where
  /-- The key. -/
  key : D.Key
  /-- The position of the group. -/
  position : Nat
  /-- The group. -/
  group : List D.Key
  /-- What the reading shows. -/
  seen : GroupReading D.Key
  /-- The round when it ends. -/
  left : Round D

namespace Round

/-- The reading of a recorded group that the next step makes, if it makes one. -/
def recheck? (s : Setting D) (r : Round D) : Option (Recheck D) :=
  match r.queue with
  | [] => none
  | k :: rest =>
      if r.halted then none
      else
        (r.tasks.get? k).bind fun t =>
          match t.mode with
          | .rebuild => none
          | .check i =>
              ((r.graph.node k).deps.group? i).map fun group =>
                let (seen, left) :=
                  readGroup s k (r.graph.node k).evaluatedAt group .start { r with queue := rest }
                { key := k, position := i, group := group, seen := seen, left := left }

variable {s : Setting D} {r r' : Round D}

/-- Whose recorded group is read next. -/
structure Rechecks (s : Setting D) (r : Round D) (rest : List D.Key) (t : Task D) (c : Recheck D) :
    Prop where
  /-- Queued work is not skipped. -/
  going : r.halted = false
  /-- It is the turn of the key. -/
  turn : r.queue = c.key :: rest
  /-- The key is under evaluation. -/
  task : r.tasks.get? c.key = some t
  /-- It is to check the group at this position. -/
  mode : t.mode = .check c.position
  /-- The group is recorded there. -/
  listed : (r.graph.node c.key).deps.group? c.position = some c.group
  /-- The group is read. -/
  read : readGroup s c.key (r.graph.node c.key).evaluatedAt c.group .start
    { r with queue := rest } = (c.seen, c.left)

theorem rechecks_of_recheck? {c : Recheck D} (h : r.recheck? s = some c) :
    ∃ rest t, Rechecks s r rest t c := by
  unfold recheck? at h
  split at h
  · cases h
  · rename_i k rest hq
    split at h
    · cases h
    · rename_i hh
      obtain ⟨t, ht, h⟩ := Option.bind_eq_some_iff.mp h
      split at h
      · cases h
      · rename_i i hmode
        obtain ⟨group, hgroup, rfl⟩ := Option.map_eq_some_iff.mp h
        exact ⟨rest, t, Bool.not_eq_true _ ▸ hh, hq, ht, hmode, hgroup, rfl⟩

/-! ## Readings during which the wish comes up -/

/-- While a dependency is read the wish comes up only if the reader will be signalled by it. -/
theorem signals_of_interrupted {k d : D.Key} (hi : r.interrupted = false)
    (h : (r.readOne s k d).2.interrupted = true) : (r.readOne s k d).1.signals = 1 := by
  cases ho : (r.graph.node d).settled? with
  | some o =>
      have hc : r.graph.isComplete d = true := by
        by_contra hc
        have hc : ¬ (r.graph.node d).isComplete = true := hc
        rw [Node.settled?, if_neg hc] at ho
        cases ho
      rw [readOne_of_settled k d hi ho] at h
      rcases demand_cases s r d with ⟨-, he⟩ | ⟨hopen, -, -⟩
      · rw [he] at h
        exact absurd (hi.symm.trans h) Bool.false_ne_true
      · exact absurd (hopen.symm.trans hc) Bool.false_ne_true
  | none =>
      rw [readOne_of_unsettled k d hi ho] at h ⊢
      rcases demand_cases s r d with ⟨-, he⟩ | ⟨-, -, he⟩
      · obtain ⟨tasks, hawait⟩ := await_frame (r.demand s d) k d
        rw [hawait, he] at h
        exact absurd (hi.symm.trans h) Bool.false_ne_true
      · -- The dependency has just come under evaluation, so nobody waits for it yet.
        rcases await_cases (r.demand s d) k d with ⟨hwaits, -⟩ | ⟨_, -, -, hawait⟩
        · refine absurd (hwaits (Task.start (r.graph.node d).status) ?_) List.not_mem_nil
          rw [he]
          exact Table.get?_insert_self _ _ _
        · rw [hawait]
          rfl

/-- While a group is read the wish comes up only if the reader will be signalled. -/
theorem enlisted_of_interrupted (s : Setting D) (k : D.Key) (since : Version)
    (group : List D.Key) (hi : r.interrupted = false)
    (h : (readGroup s k since group .start r).2.interrupted = true) :
    (readGroup s k since group .start r).1.enlisted ≠ 0 := by
  refine readGroup_induction (P := fun seen r' => r'.interrupted = true → seen.enlisted ≠ 0)
    (fun d seen r' ih hd => ?_) group (fun h => absurd (hi.symm.trans h) Bool.false_ne_true) h
  rw [(seen.note_bookkeeping since d _).1]
  cases hr' : r'.interrupted with
  | true =>
      have := ih hr'
      omega
  | false =>
      rw [signals_of_interrupted hr' hd]
      omega

namespace Rechecks

variable {rest : List D.Key} {t : Task D} {c : Recheck D}

theorem reads (h : Rechecks s r rest t c) : Reads { r with queue := rest } c.left := by
  have hreads := reads_readGroup (s := s) (k := c.key) (r.graph.node c.key).evaluatedAt c.group
    .start { r with queue := rest }
  rwa [h.read] at hreads

/-- The step that reads the group. -/
theorem step (h : Rechecks s r rest t c) {waiters : OrderedSet D.Key}
    (hkept : c.left.tasks.get? c.key = some { t with waiters := waiters }) :
    r.step s = some (if c.seen.cut then c.left
      else c.left.concludeGroup c.key { t with waiters := waiters } c.position c.seen) := by
  have hpop : ({ r with queue := rest } : Round D).halted = false := h.going
  have htask : ({ r with queue := rest } : Round D).tasks.get? c.key = some t := h.task
  have hlisted : (({ r with queue := rest } : Round D).graph.node c.key).deps.group? c.position =
      some c.group := h.listed
  simp only [Round.step, h.turn, hpop, Bool.false_eq_true, if_false, process, htask, h.mode,
    hlisted, checkGroup]
  rw [h.read]
  simp only [hkept, h.mode]

/-- The wish to stop is as it was at the end of the reading, the task is kept and the observer is
told of nothing more. -/
theorem frame (h : Rechecks s r rest t c) (hstep : r.step s = some r') :
    r'.interrupted = c.left.interrupted ∧ r'.tasks.contains c.key = true ∧
      r'.log = c.left.log := by
  obtain ⟨waiters, hkept⟩ := h.reads.kept c.key t h.task
  obtain rfl := Option.some.inj ((h.step hkept).symm.trans hstep)
  split
  · exact ⟨rfl, contains_of_get? hkept, rfl⟩
  · obtain ⟨active, queue, he⟩ :=
      concludeGroup_frame c.left c.key { t with waiters := waiters } c.position c.seen
    rw [he]
    exact ⟨rfl, Table.contains_insert.mpr (.inl rfl), rfl⟩

/-- No key completes while a group is read. -/
theorem completed (h : Rechecks s r rest t c) (hstep : r.step s = some r') {k : D.Key}
    {how : Completion} (hk : .completed k how ∈ r'.log) : .completed k how ∈ r.log := by
  rw [(h.frame hstep).2.2] at hk
  exact (h.reads.completed k how).mp hk

/-- If the wish came up during the reading, the key does not go on. -/
theorem unqueued (h : Rechecks s r rest t c) (ht : Tally r none 0 []) (hstep : r.step s = some r')
    (hi : c.left.interrupted = true) : c.key ∉ r'.queue := by
  obtain ⟨waiters, hkept⟩ := h.reads.kept c.key t h.task
  have hpop := ht.pop h.turn h.task
  have hread := hpop.readGroup (s := s) (r.graph.node c.key).evaluatedAt c.group
  have hgoing : ({ r with queue := rest } : Round D).interrupted = false :=
    not_interrupted_of_going h.going
  have henlisted := enlisted_of_interrupted s c.key (r.graph.node c.key).evaluatedAt c.group hgoing
  have hwaiting := enlisted_readGroup s c.key (r.graph.node c.key).evaluatedAt c.group
    { r with queue := rest }
  rw [h.read] at hread henlisted hwaiting
  have henlisted : c.seen.enlisted ≠ 0 := henlisted hi
  have hunqueued : c.key ∉ c.left.queue := (hread.acting c.key rfl).1
  obtain rfl := Option.some.inj ((h.step hkept).symm.trans hstep)
  split
  · exact hunqueued
  · have hzero : t.expected = 0 := hpop.expected_eq_zero h.task
    rw [concludeGroup_eq fun hnil => ?_, resumeOrPark, if_neg fun hsum => ?_]
    · exact hunqueued
    · have hsum : t.expected + c.seen.enlisted = 0 := hsum
      omega
    · rw [hnil] at hwaiting
      exact absurd (Nat.le_zero.mp hwaiting) henlisted

end Rechecks

/-! ## Abandoned keys -/

/-- A round over `g` leaves the key as it was. -/
def Abandons (g : Graph D) (r : Round D) (k : D.Key) : Prop :=
  ¬ Committed r.log k ∧ (r.graph.node k).memo = (g.node k).memo

/-- A key under evaluation in a round that is to stop is abandoned. -/
theorem abandons_of_halted {g : Graph D} (ha : Atomic g r) (hh : r.halted = true) {k : D.Key}
    (hk : r.tasks.contains k = true) (h : Reaches s r r') : Abandons g r' k := by
  obtain ⟨queue, rfl⟩ := reaches_of_halted hh h
  exact ⟨ha.not_committed hk, ha.memo_of_task hk⟩

/-- What a function did while the wish to stop came up is dropped, however it ended. -/
theorem halted_of_call {c : Call D} (hcall : r.call? s = some c) (hi : c.left.interrupted = true)
    (hstep : r.step s = some r') : r'.halted = true ∧ r'.tasks.contains c.key = true := by
  obtain ⟨rest, t, f, hcalls⟩ := calls_of_call? hcall
  obtain ⟨waiters, hkept⟩ := hcalls.reads.kept c.key t hcalls.task
  obtain rfl := Option.some.inj ((hcalls.step hkept).symm.trans hstep)
  cases hending : c.ending with
  | crash payload =>
      simp only [Ending.isCrash, Bool.not_true, Bool.and_false, Bool.false_eq_true, if_false,
        conclude]
      exact ⟨halted_of_aborted (r := c.left.abort _) rfl, contains_of_get? hkept⟩
  | _ =>
      rw [hi]
      exact ⟨halted_of_interrupted hi, contains_of_get? hkept⟩

/-! ## The end -/

/-- A round that comes to a state from where it ends, ends. -/
theorem runs_of_reaches {r₁ : Round D} (h : Reaches s r r₁)
    (hruns : ∃ enough r', ∀ budget, enough ≤ budget → Round.run s budget r₁ = some r') :
    ∃ enough r', ∀ budget, enough ≤ budget → Round.run s budget r = some r' := by
  induction h using Relation.ReflTransGen.head_induction_on with
  | refl => exact hruns
  | head hstep _ ih => exact runs_of_step hstep ih

/-- A round that is to stop skips what is queued and ends. -/
theorem runs_of_halted (hh : r.halted = true) :
    ∃ enough r', ∀ budget, enough ≤ budget → Round.run s budget r = some r' := by
  refine runs_of_measure (fun r => r.queue.length) fun r₁ h₁ r₂ hstep => ?_
  obtain ⟨queue, rfl⟩ := reaches_of_halted hh h₁
  have hhalted : ({ r with queue := queue } : Round D).halted = true := hh
  obtain ⟨k, rest, hq, rfl⟩ := step_of_halted hhalted hstep
  have hq : queue = k :: rest := hq
  simp [hq]

/-- The wish to stop is not withdrawn. -/
theorem interrupted_of_reaches (hi : r.interrupted = true) (h : Reaches s r r') :
    r'.interrupted = true := by
  obtain ⟨queue, rfl⟩ := reaches_of_halted (halted_of_interrupted hi) h
  exact hi

/-- A round that was given up although it was asked to stop was given up for the crash of the
function that was running when the wish came up. -/
theorem crashed_of_interrupted {graph : Graph D} {counts : Table D.Key Nat}
    (hg : ∀ r, Reaches s (Round.start s graph counts) r → Grounded s r)
    (h : Reaches s (Round.start s graph counts) r) (hi : r.interrupted = true) {a : Abort D.Key}
    (ha : r.aborted = some a) :
    ∃ r₀ c payload, Reaches s (Round.start s graph counts) r₀ ∧ r₀.call? s = some c ∧
      c.left.interrupted = true ∧ c.ending = .crash payload ∧ a = .crashed c.key payload := by
  obtain ⟨r₀, r₁, queue, h₀, hblames, hstep, rfl⟩ := blames_of_reaches hg h ha
  obtain ⟨r₂, hstep', hcrashed⟩ := hblames.step
  obtain rfl := Option.some.inj (hstep'.symm.trans hstep)
  obtain ⟨c, payload, hcall, rfl, hending, rfl⟩ := hcrashed hi
  exact ⟨r₀, c, payload, h₀, hcall, hi, hending, rfl⟩

end Round

end MemoGraph
