import Mathlib.Logic.Relation
import MemoGraph.Proofs.Round.Tally

/-!
# Rounds make progress while they can

Completions keep the tally of signals, and so does every step.  So when the queue of a round that
goes on has drained, each task waits for a key that has a task as well, and a root without an
outcome is held up.
-/

set_option autoImplicit false

namespace MemoGraph

variable {D : Domain}

namespace Round

variable {s : Setting D}

/-! ## The tally through a completion -/

/-- Nobody is enlisted with the completed key any more. -/
theorem Completes.enlisted_iff {r r' : Round D} {k : D.Key} {how : Completion}
    (h : Completes s k how r r') {x d : D.Key} : r'.Enlisted x d ↔ d ≠ k ∧ r.Enlisted x d := by
  constructor
  · rintro ⟨t', ht', hw⟩
    obtain ⟨hdk, t, ht, rfl⟩ := h.get?_eq_some_iff.mp ht'
    refine ⟨hdk, t, ht, ?_⟩
    split at hw
    · exact hw
    · exact hw
  · rintro ⟨hdk, t, ht, hw⟩
    refine ⟨_, h.get?_eq_some_iff.mpr ⟨hdk, t, ht, rfl⟩, ?_⟩
    split
    · exact hw
    · exact hw

/-- A key that waits for another one is not at work, unless it is acting. -/
theorem Tally.active_of_enlisted {r : Round D} {busy : Option D.Key} {n : Nat} {met : List D.Key}
    (h : Tally r busy n met) {x d : D.Key} (hbusy : busy ≠ some x) {t : Task D}
    (ht : r.tasks.get? x = some t) (he : r.Enlisted x d) : t.active = false := by
  refine Bool.eq_false_iff.mpr fun ha => h.not_enlisted ht ?_ d he
  simp [owed, hbusy, (h.ready x t ht).mp ha]

/-- A task that is left expects one signal from every key where it is still enlisted. -/
theorem Tally.counted_complete {r r' : Round D} {busy : Option D.Key} {n : Nat}
    {met : List D.Key} (h : Tally r busy n met) {k : D.Key} {how : Completion}
    (hc : Completes s k how r r') {x : D.Key} (hbusy : busy ≠ some x) {t : Task D}
    (ht : r.tasks.get? x = some t) : ∃ sources : List D.Key, sources.Nodup ∧
      (∀ d, d ∈ sources ↔ r'.Enlisted x d) ∧
        (if x ∈ r.waiters k then t.notified else t).expected = sources.length := by
  obtain ⟨sources, hnodup, hsources, hlength⟩ := h.counted x t ht
  rw [owed, if_neg hbusy] at hlength
  refine ⟨sources.erase k, hnodup.erase k, fun d => ?_, ?_⟩
  · rw [hnodup.mem_erase_iff, hc.enlisted_iff, hsources]
  · by_cases he : x ∈ r.waiters k
    · have hk : k ∈ sources := (hsources k).mpr (mem_waiters_iff.mp he)
      have hpos : 0 < sources.length := List.length_pos_of_mem hk
      rw [if_pos he, List.length_erase_of_mem hk]
      simp only [Task.notified]
      omega
    · have hk : k ∉ sources := fun hk => he (mem_waiters_iff.mpr ((hsources k).mp hk))
      rw [if_neg he, List.erase_of_not_mem hk]
      omega

/-- A key that wakes is not queued yet. -/
theorem Tally.not_mem_queue_of_wakes {r : Round D} {busy : Option D.Key} {n : Nat}
    {met : List D.Key} (h : Tally r busy n met) {x : D.Key} (hw : r.Wakes x) : x ∉ r.queue := by
  obtain ⟨t, ht, -, hidle⟩ := hw
  intro hx
  rcases h.working x hx with hcomplete | ⟨t', ht', hactive⟩
  · rw [h.unfinished x t ht] at hcomplete
    exact Bool.noConfusion hcomplete
  · obtain rfl : t = t' := Option.some.inj (ht.symm.trans ht')
    rw [hidle] at hactive
    exact Bool.noConfusion hactive

/-- Completing a key sends exactly the signals that its waiters expect. -/
theorem Tally.complete {r r' : Round D} {busy : Option D.Key} {n : Nat} {met : List D.Key}
    (h : Tally r busy n met) {k : D.Key} {how : Completion}
    (hbusy : ∀ x, busy = some x → x = k) (hc : Completes s k how r r')
    (hs : Graph.Settles s.version k r.graph r'.graph) : Tally r' none 0 [] := by
  have howed (x : D.Key) (hxk : x ≠ k) : busy ≠ some x := fun hb => hxk (hbusy x hb)
  have hidle (x : D.Key) (t : Task D) (hxk : x ≠ k) (ht : r.tasks.get? x = some t)
      (he : x ∈ r.waiters k) : t.active = false :=
    h.active_of_enlisted (howed x hxk) ht (mem_waiters_iff.mp he)
  constructor
  case unfinished =>
    intro x t' hx
    obtain ⟨hxk, t, ht, -⟩ := hc.get?_eq_some_iff.mp hx
    rw [hs.isComplete_of_ne hxk]
    exact h.unfinished x t ht
  case counted =>
    intro x t' hx
    obtain ⟨hxk, t, ht, rfl⟩ := hc.get?_eq_some_iff.mp hx
    simpa [owed] using h.counted_complete hc (howed x hxk) ht
  case awaits =>
    intro x t' hx d
    obtain ⟨hxk, t, ht, -, -, hawaited⟩ := hc.back hx
    rw [hc.enlisted_iff, h.awaits x t ht d, hawaited]
    by_cases hdk : d = k
    · simp [hdk, hs.complete]
    · simp [hdk, howed x hxk, hs.isComplete_of_ne hdk]
  case ready =>
    intro x t' hx
    obtain ⟨hxk, t, ht, rfl⟩ := hc.get?_eq_some_iff.mp hx
    split
    · rename_i he
      simp [Task.notified, hidle x t hxk ht he]
    · exact h.ready x t ht
  case queued =>
    intro x t' hx ha _
    obtain ⟨hxk, t, ht, rfl⟩ := hc.get?_eq_some_iff.mp hx
    cases hstop : r'.stopping with
    | true => exact .inr rfl
    | false =>
        refine .inl (hc.mem_queue_iff.mpr ?_)
        split at ha
        · rename_i he
          -- A notified task that is at work was put back to it by the signal.
          have hactive := hidle x t hxk ht he
          have hwakes : r.Wakes x := ⟨t, ht, by simpa [Task.notified, hactive] using ha, hactive⟩
          exact .inr ⟨hstop, he, hxk, hwakes⟩
        · rcases h.queued x t ht ha (howed x hxk) with hq | hq
          · exact .inl hq
          · rw [hc.stopping, hq] at hstop
            exact Bool.noConfusion hstop
  case working =>
    intro x hx
    by_cases hxk : x = k
    · exact .inl (hxk ▸ hs.complete)
    · rw [hs.isComplete_of_ne hxk]
      rcases hc.mem_queue_iff.mp hx with hx | ⟨-, he, -, t, ht, hzero, -⟩
      · refine (h.working x hx).imp_right ?_
        rintro ⟨t, ht, ha⟩
        refine ⟨_, hc.get?_eq_some_iff.mpr ⟨hxk, t, ht, rfl⟩, ?_⟩
        split
        · simp [Task.notified, ha]
        · exact ha
      · refine .inr ⟨_, hc.get?_eq_some_iff.mpr ⟨hxk, t, ht, rfl⟩, ?_⟩
        simp [he, Task.notified, hzero]
  case nodup =>
    rw [hc.queue]
    split
    · simpa using h.nodup
    · refine List.nodup_append.mpr ⟨h.nodup, (nodup_waiters r k).filter _, ?_⟩
      rintro a ha b hb rfl
      simp only [List.mem_filter, Bool.and_eq_true, decide_eq_true_eq] at hb
      exact h.not_mem_queue_of_wakes hb.2.2 ha
  case enrolled =>
    intro x d hd
    by_cases hxk : x = k
    · exact .inl (hxk ▸ hs.complete)
    · rw [hs.isComplete_of_ne hxk]
      refine (h.enrolled x d (hc.enlisted_iff.mp hd).2).imp_right fun hx => ?_
      obtain ⟨t, ht⟩ := Option.isSome_iff_exists.mp hx
      exact contains_of_get? (hc.get?_eq_some_iff.mpr ⟨hxk, t, ht, rfl⟩)
  case acting =>
    intro x hb
    cases hb

/-! ## Breaking cycles -/

/-- The second round is the first after `k`, on some of the cycles, failed. -/
structure FailsMember (s : Setting D) (found : List (Cycle D.Key)) (k : D.Key) (t : Task D)
    (r r' : Round D) : Prop where
  /-- The key is on one of the cycles. -/
  member : ∃ c ∈ found, k ∈ c.members
  /-- It is under evaluation. -/
  task : r.tasks.get? k = some t
  /-- It has no outcome. -/
  incomplete : r.graph.isComplete k = false
  /-- It fails with the cycles it is on. -/
  fails : r' = r.completeFailed s k (if t.mode = .rebuild then some t.requested else none)
    (.ofCycles (cyclesOf found k))

namespace FailsMember

variable {found : List (Cycle D.Key)} {k : D.Key} {t : Task D} {r r' : Round D}

theorem completes (h : FailsMember s found k t r r') : Completes s k .failed r r' := by
  rw [h.fails]
  exact completes_failed s r k _ _

theorem settles (h : FailsMember s found k t r r') :
    Graph.Settles s.version k r.graph r'.graph := by
  rw [h.fails]
  exact settles_completeFailed _ _ h.incomplete

end FailsMember

/-- Breaking cycles fails their members one after the other and keeps the tally at each. -/
theorem Tally.failMembers_induction {r : Round D} (h : Tally r none 0 [])
    (found : List (Cycle D.Key)) {P : Round D → Prop}
    (begin : P { r with cycles := r.cycles ++ found })
    (member : ∀ {k t r₁ r₂}, P r₁ → Tally r₁ none 0 [] → FailsMember s found k t r₁ r₂ → P r₂) :
    Tally (r.failMembers s found) none 0 [] ∧ P (r.failMembers s found) := by
  refine Round.failMembers_induction found (P := fun r => Tally r none 0 [] ∧ P r)
    ⟨{ h with }, begin⟩ fun k t r₁ h₁ hk ht => ?_
  have hfails : FailsMember s found k t r₁ _ := ⟨hk, ht, h₁.1.unfinished k t ht, rfl⟩
  exact ⟨h₁.1.complete (fun x hx => by cases hx) hfails.completes hfails.settles,
    member h₁.2 h₁.1 hfails⟩

/-! ## Steps -/

theorem concludeGroup_eq {r : Round D} {k : D.Key} {t : Task D} {i : Nat}
    {seen : GroupReading D.Key} (h : seen.waiting = [] → t.expected + seen.enlisted = 0) :
    r.concludeGroup k t i seen = r.resumeOrPark k (t.afterGroup i seen) := by
  simp only [concludeGroup, Task.afterGroup, GroupReading.nextMode]
  cases seen.changed with
  | true => rfl
  | false =>
      simp only [Bool.false_eq_true, if_false]
      cases hw : seen.waiting.isEmpty with
      | true =>
          have hzero := h (List.isEmpty_iff.mp hw)
          simp only [if_true, resumeOrPark, hzero]
      | false => rfl

/-- Reading a group enlists the reader with keys that it waits for. -/
theorem enlisted_readGroup (s : Setting D) (k : D.Key) (since : Version) (group : List D.Key)
    (r : Round D) : (readGroup s k since group .start r).1.enlisted ≤
      (readGroup s k since group .start r).1.waiting.length := by
  refine readGroup_induction (P := fun seen _ => seen.enlisted ≤ seen.waiting.length)
    (fun d seen r h => ?_) group (Nat.le_refl 0)
  obtain ⟨henlisted, hwaiting⟩ := seen.note_bookkeeping since d (r.readOne s k d).1
  rw [henlisted, hwaiting, List.length_append]
  refine Nat.add_le_add h ?_
  cases (r.readOne s k d).1 with
  | pending enlisted =>
      cases enlisted with
      | true => exact Nat.le_refl 1
      | false => exact Nat.zero_le 1
  | _ => exact Nat.zero_le _

/-- An action keeps the tally, unless the round is to stop after it. -/
theorem Tally.move {r r' : Round D} (h : Tally r none 0 []) {k : D.Key} {rest : List D.Key}
    (hq : r.queue = k :: rest) (hm : Move s { r with queue := rest } k r') :
    r'.halted = true ∨ Tally r' none 0 [] := by
  have hself (x : D.Key) (hx : some k = some x) : x = k := (Option.some.inj hx).symm
  cases hm with
  | idle ht => exact .inr (h.skip hq ht)
  | verified ht _ _ =>
      exact .inr ((h.pop hq ht).complete hself (completes_clean s _ k)
        (settles_completeClean s _ k))
  | @checked t i group waiters seen r' hc =>
      have hpop := h.pop hq hc.task
      have hread := hpop.readGroup (s := s)
        (({ r with queue := rest } : Round D).graph.node k).evaluatedAt group
      have hle := enlisted_readGroup s k
        (({ r with queue := rest } : Round D).graph.node k).evaluatedAt group
        { r with queue := rest }
      rw [hc.read] at hread hle
      have hzero := hpop.expected_eq_zero hc.task
      have hactive := (hpop.ready k t hc.task).mpr hzero
      rw [concludeGroup_eq]
      · exact .inr (hread.resumeOrPark hc.kept rfl (by simp [Task.afterGroup]) rfl hactive)
      · intro hw
        have hlength : seen.waiting.length = 0 := by
          rw [hw]
          rfl
        have hnone : seen.enlisted ≤ seen.waiting.length := hle
        simp only [hzero]
        omega
  | dropped hd => exact .inl (by simp [halted, hd.interrupted])
  | lost _ => exact .inl (by simp [halted, abort])
  | @built t waiters f v inv r' hc hmissing =>
      have hread := (h.pop hq hc.task).invoke (s := s) f t.scratch
      rw [hc.run] at hread
      obtain ⟨how, -, -, hcompletes⟩ := completes_built s r' k (t.requested.pushAll inv.batches) v
      exact .inr (hread.complete hself hcompletes
        (settles_completeBuilt _ v (hread.unfinished k _ hc.kept)))
  | @failed t waiters f e inv r' hc =>
      have hread := (h.pop hq hc.task).invoke (s := s) f t.scratch
      rw [hc.run] at hread
      exact .inr (hread.complete hself (completes_failed s r' k _ _)
        (settles_completeFailed _ _ (hread.unfinished k _ hc.kept)))
  | @blocked t waiters f inv r' hc _ _ _ _ =>
      have hread := (h.pop hq hc.task).invoke (s := s) f t.scratch
      rw [hc.run] at hread
      exact .inr (hread.complete hself (completes_failed s r' k _ _)
        (settles_completeFailed _ _ (hread.unfinished k _ hc.kept)))
  | @waiting t waiters f inv r' hc _ _ =>
      have hpop := h.pop hq hc.task
      have hread := hpop.invoke (s := s) f t.scratch
      rw [hc.run] at hread
      have hactive := (hpop.ready k t hc.task).mpr (hpop.expected_eq_zero hc.task)
      exact .inr (hread.resumeOrPark hc.kept rfl (by simp [Task.afterCall, Task.absorb]) rfl
        hactive)

/-- A step keeps the tally, unless the round is to stop after it. -/
theorem Tally.step {r r' : Round D} (h : r.halted = true ∨ Tally r none 0 [])
    (hstep : r.step s = some r') : r'.halted = true ∨ Tally r' none 0 [] := by
  cases advance_of_step hstep with
  | skipped _ hh => exact .inl hh
  | acted hq hh hm =>
      have htally := h.resolve_left (by simp [hh])
      exact htally.move hq hm
  | broken _ hh _ _ =>
      have htally := h.resolve_left (by simp [hh])
      exact .inr (htally.failMembers_induction _ (P := fun _ => True) trivial
        fun _ _ _ => trivial).1

/-! ## Known keys -/

/-- A key that is complete or under evaluation. -/
def Known (r : Round D) (k : D.Key) : Prop :=
  r.graph.isComplete k = true ∨ r.tasks.contains k = true

theorem Reads.known {r r' : Round D} (h : Reads r r') {x : D.Key} (hx : r.Known x) :
    r'.Known x := by
  rw [Known, h.isComplete]
  exact hx.imp id h.contains

/-- Replacing the task of a key leaves all keys known. -/
theorem Known.retask {r : Round D} {k : D.Key} {t : Task D} {queue : List D.Key} {x : D.Key}
    (h : r.Known x) :
    ({ r with tasks := r.tasks.insert k t, queue := queue } : Round D).Known x :=
  h.imp_right fun hx => Table.contains_insert.mpr (.inr hx)

theorem Completes.known {r r' : Round D} {k : D.Key} {how : Completion}
    (h : Completes s k how r r') (hs : Graph.Settles s.version k r.graph r'.graph) {x : D.Key}
    (hx : r.Known x) : r'.Known x := by
  by_cases hxk : x = k
  · exact .inl (hxk ▸ hs.complete)
  · rw [Known, hs.isComplete_of_ne hxk]
    refine hx.imp id fun ht => ?_
    obtain ⟨t, ht⟩ := Option.isSome_iff_exists.mp ht
    exact contains_of_get? (h.get?_eq_some_iff.mpr ⟨hxk, t, ht, rfl⟩)

/-- Letting a key go on or wait changes nothing but its task and the queue. -/
theorem resumeOrPark_eq (r : Round D) (k : D.Key) (t : Task D) :
    ∃ active queue, r.resumeOrPark k t =
      { r with tasks := r.tasks.insert k { t with active := active }, queue := queue } := by
  unfold resumeOrPark
  split
  · exact ⟨t.active, _, rfl⟩
  · exact ⟨false, _, rfl⟩

/-- A key that expected no signal before its invocation, and waits after it, is parked. -/
theorem resumeOrPark_afterCall {r : Round D} {k : D.Key} {t : Task D}
    {waiters : OrderedSet D.Key} {inv : Invocation D} (hexpected : t.expected = 0)
    (h : t.expected + inv.enlisted ≠ 0 ∨ inv.enlisted ≠ 0) :
    r.resumeOrPark k (Task.afterCall { t with waiters := waiters } inv) =
      r.park k (Task.afterCall { t with waiters := waiters } inv) := by
  refine if_neg fun hzero => ?_
  have hzero : t.expected + inv.enlisted = 0 := hzero
  omega

theorem concludeGroup_frame (r : Round D) (k : D.Key) (t : Task D) (i : Nat)
    (seen : GroupReading D.Key) :
    ∃ active queue, r.concludeGroup k t i seen =
      { r with
        tasks := r.tasks.insert k { t.afterGroup i seen with active := active }
        queue := queue } := by
  simp only [concludeGroup, Task.afterGroup, GroupReading.nextMode]
  cases seen.changed with
  | true => exact resumeOrPark_eq r k _
  | false =>
      cases seen.waiting.isEmpty with
      | true => exact ⟨t.active, _, rfl⟩
      | false => exact resumeOrPark_eq r k _

/-- What the action of a key does to nodes and known keys, in outline. -/
inductive Acts (s : Setting D) (k : D.Key) (r r' : Round D) : Prop where
  /-- nothing is stored and no key is forgotten -/
  | rests : (∀ x, r'.graph.node x = r.graph.node x) → (∀ x, r.Known x → r'.Known x) →
      Acts s k r r'
  /-- the key reads and completes -/
  | completes {r₁ : Round D} {how : Completion} : r.graph.isComplete k = false → Reads r r₁ →
      Completes s k how r₁ r' → Graph.Settles s.version k r₁.graph r'.graph → Acts s k r r'

theorem acts_of_move {r r' : Round D} {k : D.Key}
    (hk : ∀ t, r.tasks.get? k = some t → r.graph.isComplete k = false) (h : Move s r k r') :
    Acts s k r r' := by
  have hgoes {r₁ : Round D} {t : Task D} {queue : List D.Key} (hr : Reads r r₁) :
      Acts s k r { r₁ with tasks := r₁.tasks.insert k t, queue := queue } :=
    .rests hr.node fun _ hx => (hr.known hx).retask
  have hinc {r₁ : Round D} {t : Task D} (hr : Reads r r₁) (ht : r.tasks.get? k = some t) :
      r₁.graph.isComplete k = false := (hr.isComplete k).trans (hk t ht)
  cases h with
  | idle _ => exact .rests (fun _ => rfl) fun _ => id
  | verified ht _ _ =>
      exact .completes (hk _ ht) (.refl r) (completes_clean s r k) (settles_completeClean s r k)
  | checked hc =>
      obtain ⟨active, queue, he⟩ := concludeGroup_frame _ k _ _ _
      rw [he]
      exact hgoes hc.reads
  | dropped hd => exact .rests hd.reads.node fun _ => hd.reads.known
  | lost hl => exact .rests hl.reads.node fun _ => hl.reads.known
  | built hi _ =>
      obtain ⟨how, -, -, hbuilt⟩ := completes_built s _ k _ _
      exact .completes (hk _ hi.task) hi.reads hbuilt
        (settles_completeBuilt _ _ (hinc hi.reads hi.task))
  | failed hi =>
      exact .completes (hk _ hi.task) hi.reads (completes_failed s _ k _ _)
        (settles_completeFailed _ _ (hinc hi.reads hi.task))
  | blocked hi _ _ _ _ =>
      exact .completes (hk _ hi.task) hi.reads (completes_failed s _ k _ _)
        (settles_completeFailed _ _ (hinc hi.reads hi.task))
  | waiting hi _ _ =>
      obtain ⟨active, queue, he⟩ := resumeOrPark_eq _ k _
      rw [he]
      exact hgoes hi.reads

/-- No key is forgotten: it completes or stays under evaluation. -/
theorem Tally.known_step {r r' : Round D} (h : r.halted = true ∨ Tally r none 0 [])
    (hstep : r.step s = some r') {x : D.Key} (hx : r.Known x) : r'.Known x := by
  cases advance_of_step hstep with
  | skipped _ _ => exact hx
  | @acted k rest _ _ hh hm =>
      have htally := h.resolve_left (by simp [hh])
      cases acts_of_move (r := { r with queue := rest }) (htally.unfinished k) hm with
      | rests _ hknown => exact hknown x hx
      | completes _ hr hc hs => exact hc.known hs (hr.known hx)
  | broken _ hh _ _ =>
      have htally := h.resolve_left (by simp [hh])
      exact (htally.failMembers_induction _ (P := fun r => r.Known x) hx
        fun hx₁ _ hf => hf.completes.known hf.settles hx₁).2

/-- A complete key stays as it is. -/
theorem Tally.memo_step {r r' : Round D} (h : r.halted = true ∨ Tally r none 0 [])
    (hstep : r.step s = some r') {x : D.Key} (hx : r.graph.isComplete x = true) :
    (r'.graph.node x).memo = (r.graph.node x).memo := by
  cases advance_of_step hstep with
  | skipped _ _ => rfl
  | @acted k rest _ _ hh hm =>
      have htally := h.resolve_left (by simp [hh])
      cases acts_of_move (r := { r with queue := rest }) (htally.unfinished k) hm with
      | rests hnode _ => exact congrArg Node.memo (hnode x)
      | completes hk hr _ hs =>
          refine (hs.others x ?_).trans (congrArg Node.memo (hr.node x))
          rintro rfl
          exact Bool.noConfusion (hx.symm.trans hk)
  | broken _ hh _ _ =>
      have htally := h.resolve_left (by simp [hh])
      refine (htally.failMembers_induction _
        (P := fun r₁ => (r₁.graph.node x).memo = (r.graph.node x).memo) rfl ?_).2
      intro k t r₁ r₂ hmemo _ hf
      refine (hf.settles.others x ?_).trans hmemo
      rintro rfl
      have hk := hf.incomplete
      rw [Graph.isComplete, Node.isComplete_of_memo_eq hmemo] at hk
      exact Bool.noConfusion (hx.symm.trans hk)

/-! ## Runs -/

/-- The second round is reached from the first by steps. -/
def Reaches (s : Setting D) : Round D → Round D → Prop :=
  Relation.ReflTransGen fun r r' => r.step s = some r'

/-- A round that is to stop only skips what is queued. -/
theorem step_of_halted {r r' : Round D} (hh : r.halted = true) (hstep : r.step s = some r') :
    ∃ k rest, r.queue = k :: rest ∧ r' = { r with queue := rest } := by
  cases advance_of_step hstep with
  | @skipped k rest hq _ => exact ⟨k, rest, hq, rfl⟩
  | acted _ hgo _ => exact absurd (hgo.symm.trans hh) Bool.false_ne_true
  | broken _ hgo _ _ => exact absurd (hgo.symm.trans hh) Bool.false_ne_true

/-- A round that is to stop does not go on. -/
theorem halted_step {r r' : Round D} (hh : r.halted = true) (hstep : r.step s = some r') :
    r'.halted = true := by
  obtain ⟨k, rest, -, rfl⟩ := step_of_halted hh hstep
  exact hh

/-- A run that ends has taken steps until there was none left. -/
theorem reaches_of_run {budget : Nat} {r r' : Round D} (h : Round.run s budget r = some r') :
    Reaches s r r' ∧ r'.step s = none := by
  induction budget generalizing r with
  | zero => cases h
  | succ budget ih =>
      unfold Round.run at h
      cases hstep : r.step s with
      | none =>
          rw [hstep] at h
          obtain rfl := Option.some.inj h
          exact ⟨.refl, hstep⟩
      | some r₁ =>
          rw [hstep] at h
          obtain ⟨hreach, hend⟩ := ih h
          exact ⟨.head hstep hreach, hend⟩

/-- A round over `graph` before any key is demanded. -/
def blank (graph : Graph D) (calls : Table D.Key Nat) : Round D :=
  { graph := graph, tasks := ∅, queue := [], stopping := false, aborted := none,
    interrupted := false, cycles := [], calls := calls, log := [] }

theorem start_eq (s : Setting D) (graph : Graph D) (calls : Table D.Key Nat) :
    Round.start s graph calls = s.roots.toList.foldl (demand s) (blank graph calls) := rfl

/-- What holds before the roots are demanded and is kept by each demand holds at the start. -/
theorem start_induction {P : Round D → Prop} {graph : Graph D} {calls : Table D.Key Nat}
    (begin : P (blank graph calls)) (demand : ∀ k ∈ s.roots, ∀ r, P r → P (r.demand s k)) :
    P (Round.start s graph calls) := by
  rw [start_eq]
  have hroots : ∀ k ∈ s.roots.toList, k ∈ s.roots := fun k hk => OrderedSet.mem_def.mpr hk
  generalize s.roots.toList = roots at hroots ⊢
  generalize blank graph calls = r at begin
  induction roots generalizing r with
  | nil => exact begin
  | cons k rest ih =>
      exact ih (fun x hx => hroots x (List.mem_cons_of_mem k hx)) _
        (demand k (hroots k List.mem_cons_self) r begin)

/-- The demand of the roots stores nothing. -/
theorem node_start {graph : Graph D} {calls : Table D.Key Nat} (x : D.Key) :
    (Round.start s graph calls).graph.node x = graph.node x := by
  refine start_induction (P := fun r => r.graph.node x = graph.node x) rfl fun k _ r h => ?_
  exact ((reads_demand s r k).node x).trans h

/-- When a round begins, the roots that need work have tasks, all of them just begun. -/
theorem task_of_start {graph : Graph D} {calls : Table D.Key Nat} {k : D.Key} {t : Task D}
    (h : (Round.start s graph calls).tasks.get? k = some t) :
    k ∈ s.roots ∧ graph.isComplete k = false ∧ t = Task.start (graph.node k).status := by
  refine (start_induction (P := fun r => (∀ x, r.graph.node x = graph.node x) ∧
    ∀ x t, r.tasks.get? x = some t → x ∈ s.roots ∧ graph.isComplete x = false ∧
      t = Task.start (graph.node x).status) ⟨fun _ => rfl, fun x t ht => ?_⟩ ?_).2 k t h
  · cases ht
  · rintro root hroot r ⟨hnode, htasks⟩
    refine ⟨fun x => ((reads_demand s r root).node x).trans (hnode x), fun x t ht => ?_⟩
    rcases demand_cases s r root with ⟨-, he⟩ | ⟨hc, -, he⟩
    · rw [he] at ht
      exact htasks x t ht
    · rw [he] at ht
      rcases Table.get?_insert_eq_some_iff.mp ht with ⟨rfl, rfl⟩ | ⟨-, ht⟩
      · rw [Graph.isComplete, hnode] at hc
        exact ⟨hroot, hc, by rw [hnode]⟩
      · exact htasks x t ht

theorem tally_start (graph : Graph D) (calls : Table D.Key Nat) :
    Tally (Round.start s graph calls) none 0 [] := by
  refine start_induction (P := fun r => Tally r none 0 []) ?_ fun k _ r h => h.demand s k
  have hnone (x d : D.Key) (r : Round D) (hr : r.tasks = ∅) : ¬ r.Enlisted x d := by
    rintro ⟨t, ht, -⟩
    rw [hr] at ht
    cases ht
  refine ⟨fun _ _ hx => ?_, fun _ _ hx => ?_, fun _ _ hx => ?_, fun _ _ hx => ?_,
    fun _ _ hx => ?_, fun x hx => ?_, List.nodup_nil, fun x d hx => absurd hx (hnone x d _ rfl),
    fun x hx => by cases hx⟩
  all_goals cases hx

/-- The tally of a round, from its start to its end. -/
theorem tally_of_reaches {graph : Graph D} {calls : Table D.Key Nat} {r : Round D}
    (h : Reaches s (Round.start s graph calls) r) : r.halted = true ∨ Tally r none 0 [] := by
  induction h with
  | refl => exact .inr (tally_start graph calls)
  | tail _ hstep ih => exact Tally.step ih hstep

theorem tally_of_going {graph : Graph D} {calls : Table D.Key Nat} {r : Round D}
    (h : Reaches s (Round.start s graph calls) r) (hh : r.halted = false) : Tally r none 0 [] :=
  (tally_of_reaches h).resolve_left (by simp [hh])

theorem known_foldl_demand {roots : List D.Key} {r : Round D} {x : D.Key}
    (h : x ∈ roots ∨ r.Known x) : (roots.foldl (demand s) r).Known x := by
  induction roots generalizing r with
  | nil => exact h.resolve_left List.not_mem_nil
  | cons k rest ih =>
      refine ih ?_
      rcases h with h | h
      · rcases List.mem_cons.mp h with rfl | h
        · exact .inr (known_demand s r x)
        · exact .inl h
      · exact .inr ((reads_demand s r k).known h)

/-- What was complete in some state of a round is as it was in every later one. -/
theorem memo_of_reaches {graph : Graph D} {calls : Table D.Key Nat} {r r' : Round D}
    (h : Reaches s (Round.start s graph calls) r) (h' : Reaches s r r') {x : D.Key}
    (hx : r.graph.isComplete x = true) : (r'.graph.node x).memo = (r.graph.node x).memo := by
  induction h' with
  | refl => rfl
  | tail hr hstep ih =>
      refine (Tally.memo_step (tally_of_reaches (h.trans hr)) hstep ?_).trans ih
      rw [Graph.isComplete, Node.isComplete_of_memo_eq ih]
      exact hx

/-- Steps are determined, so the end of a round comes after any of its states. -/
theorem reaches_end {r r₁ r₂ : Round D} (h₁ : Reaches s r r₁) (h₂ : Reaches s r r₂)
    (hend : r₂.step s = none) : Reaches s r₁ r₂ := by
  induction h₁ with
  | refl => exact h₂
  | tail _ hstep ih =>
      rcases Relation.ReflTransGen.cases_head ih with rfl | ⟨r', hstep', hrest⟩
      · rw [hend] at hstep
        cases hstep
      · rw [hstep] at hstep'
        exact Option.some.inj hstep' ▸ hrest

/-- An action breaks no cycle. -/
theorem cycles_of_move {r r' : Round D} {k : D.Key} (h : Move s r k r') :
    r'.cycles = r.cycles := by
  cases h with
  | idle _ => rfl
  | verified _ _ _ => exact (completes_clean s r k).cycles
  | checked hc =>
      obtain ⟨active, queue, he⟩ := concludeGroup_frame _ k _ _ _
      rw [he]
      exact hc.reads.cycles
  | dropped hd => exact hd.reads.cycles
  | lost hl => exact hl.reads.cycles
  | built hi _ =>
      obtain ⟨how, -, -, hbuilt⟩ := completes_built s _ k _ _
      exact hbuilt.cycles.trans hi.reads.cycles
  | failed hi => exact (completes_failed s _ k _ _).cycles.trans hi.reads.cycles
  | blocked hi _ _ _ _ => exact (completes_failed s _ k _ _).cycles.trans hi.reads.cycles
  | waiting hi _ _ =>
      obtain ⟨active, queue, he⟩ := resumeOrPark_eq _ k _
      rw [he]
      exact hi.reads.cycles

/-- Cycles that were listed stay listed. -/
theorem cycles_of_reaches {r r' : Round D} (h : Reaches s r r') : r.cycles <+: r'.cycles := by
  induction h with
  | refl => exact List.prefix_rfl
  | @tail r₁ r₂ _ hstep ih =>
      refine ih.trans ?_
      cases advance_of_step hstep with
      | skipped _ _ => exact List.prefix_rfl
      | acted _ _ hm => simp only [cycles_of_move hm, List.prefix_rfl]
      | broken _ _ _ _ =>
          rw [cycles_failMembers]
          exact List.prefix_append _ _

/-- Every root is known throughout a round. -/
theorem known_root_of_reaches {graph : Graph D} {calls : Table D.Key Nat} {r : Round D}
    (h : Reaches s (Round.start s graph calls) r) {root : D.Key} (hroot : root ∈ s.roots) :
    r.Known root := by
  induction h with
  | refl =>
      rw [start_eq]
      exact known_foldl_demand (.inl hroot)
  | tail hr hstep ih => exact Tally.known_step (tally_of_reaches hr) hstep ih

/-! ## Drained rounds -/

/-- When the queue of a round that goes on has drained, every task waits for another one. -/
theorem Tally.drained {r : Round D} (h : Tally r none 0 []) (hq : r.queue = [])
    (hs : r.stopping = false) {k : D.Key} (hk : r.tasks.contains k = true) :
    ∃ d ∈ r.blockers k, r.tasks.contains d = true := by
  obtain ⟨t, ht⟩ := Option.isSome_iff_exists.mp hk
  have hidle : t.active ≠ true := by
    intro ha
    rcases h.queued k t ht ha (by simp) with hmem | hstop
    · rw [hq] at hmem
      exact absurd hmem List.not_mem_nil
    · rw [hs] at hstop
      exact Bool.noConfusion hstop
  have hexpected : t.expected ≠ 0 := fun he => hidle ((h.ready k t ht).mpr he)
  obtain ⟨sources, -, hsources, hlength⟩ := h.counted k t ht
  simp only [owed, reduceCtorEq, if_false, Int.add_zero] at hlength
  cases hcases : sources with
  | nil => simp [hcases, hlength] at hexpected
  | cons d rest =>
      have hd : r.Enlisted k d := (hsources d).mp (by simp [hcases])
      obtain ⟨hawaited, hinc⟩ := (h.awaits k t ht d).mp hd
      obtain ⟨t', ht', -⟩ := hd
      refine ⟨d, ?_, contains_of_get? ht'⟩
      simp only [blockers, ht, List.mem_filter, hinc, Bool.not_false, and_true]
      simpa [OrderedSet.mem_def] using hawaited

end Round

end MemoGraph
