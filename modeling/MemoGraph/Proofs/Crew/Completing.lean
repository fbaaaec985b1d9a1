import MemoGraph.Proofs.Crew.Working

/-!
# One worker alone: completing keys

A key completes in many steps: its dependencies are recorded, their readers are brought in line one
edge at a time, the outcome is published, and the waiters are told one by one.  Somebody who works
alone gets through all of them to entries that reflect the round after one completion.
-/

set_option autoImplicit false

namespace MemoGraph

variable {D : Domain} {s : Setting D}

namespace Reflects

variable {view : D.Key → Task D → Task D} {l : Live D} {r : Round D} {k : D.Key}
  {f : Task D → Task D}

/-- The round is given up. -/
theorem from_dooming (h : Reflects view l r) (hgo : r.aborted = none) (a : Abort D.Key) :
    ComesTo s (l, .dooming a) .idle view (r.abort a) := by
  have hfatal : (l.fatal <|> some a) = some a := by
    rw [h.fatal, hgo]
    rfl
  have hdoomed : Reflects view { l with fatal := l.fatal <|> some a, failed := true }
      (r.abort a) := { h with failed := rfl, fatal := hfatal }
  exact .step rfl rfl (.step rfl rfl (.here hdoomed))

/-! ## Telling the waiters -/

/-- One waiter is signalled. -/
theorem from_signalling_one (h : Reflects asKept l r) (waiter : D.Key) (rest : List D.Key)
    (after : After D) :
    ComesTo s (l, .signalling (waiter :: rest) after) (.signalling rest after) asKept
      (r.signal waiter) := by
  have htask := h.task_eq waiter
  unfold Round.signal
  cases ht : r.tasks.get? waiter with
  | none =>
      rw [ht] at htask
      refine .step rfl ?_ (.here h)
      simp only [Stage.step, Live.signal, htask]
  | some t =>
      rw [ht] at htask
      have hput (t' : Task D) : Reflects asKept (l.retask waiter t') (r.putTask waiter t') := by
        rw [← inHand_id waiter] at h ⊢
        exact h.retask ht id t'
      dsimp only
      split
      · rename_i hwakes
        refine .step rfl ?_ ((hput { t with expected := t.expected - 1, active := true
          }).from_queueing waiter (.signalling rest after))
        simp only [Stage.step, Live.signal, htask]
        exact if_pos hwakes
      · rename_i hwakes
        refine .step rfl ?_ (.here (hput { t with expected := t.expected - 1 }))
        simp only [Stage.step, Live.signal, htask]
        exact if_neg hwakes

/-- The waiters of a key that completed are signalled. -/
theorem from_signalling (h : Reflects asKept l r) (waiters : List D.Key) (after : After D) :
    ComesTo s (l, .signalling waiters after) after.stage asKept
      (waiters.foldl Round.signal r) := by
  induction waiters generalizing l r with
  | nil => exact .step rfl rfl (.here h)
  | cons waiter rest ih => exact (h.from_signalling_one waiter rest after).andThen ih

/-- A completion is told. -/
theorem from_reporting (h : Reflects asKept l { r with tasks := r.tasks.erase k })
    (how : Completion) (after : After D) :
    ComesTo s (l, .reporting k how (r.waiters k) after) after.stage asKept (r.release s k how) :=
  .step rfl rfl ((h.record (.completed k how)).from_signalling (r.waiters k) after)

/-! ## Recording dependencies -/

/-- The dependencies that a key stops reading are told. -/
theorem from_unlinking (h : Reflects view l r) (k : D.Key) (dropped added : List D.Key)
    (o : Outcome D) (after : After D) :
    ComesTo s (l, .relinking k dropped added o after) (.relinking k [] added o after) view
      { r with graph := dropped.foldl (fun g dep => g.unlink k dep) r.graph } := by
  induction dropped generalizing l r with
  | nil => exact .here h
  | cons dep rest ih =>
      have hone := h.adjust dep (f := fun e => { e with rdeps := e.rdeps.erase k })
        (g := fun n => { n with rdeps := n.rdeps.erase k })
        (fun _ _ => rfl) fun _ => rfl
      exact .step rfl rfl (ih hone)

/-- The dependencies that a key reads are told. -/
theorem from_linking (h : Reflects view l r) (k : D.Key) (added : List D.Key)
    (o : Outcome D) (after : After D) :
    ComesTo s (l, .relinking k [] added o after) (.publishing k o after) view
      { r with graph := added.foldl (fun g dep => g.link k dep) r.graph } := by
  induction added generalizing l r with
  | nil => exact .step rfl rfl (.here h)
  | cons dep rest ih =>
      have hone := h.update dep (f := fun e => { e with rdeps := e.rdeps.insert k })
        (g := fun n => { n with rdeps := n.rdeps.insert k })
        (fun _ _ => rfl) fun _ => rfl
      exact .step rfl rfl (ih hone)

/-- The dependencies of a key are recorded. -/
theorem from_recording (h : Reflects view l r) (k : D.Key) (deps : DepGroups D.Key)
    (o : Outcome D) (after : After D) :
    ComesTo s (l, .recording k deps o after) (.publishing k o after) view
      { r with graph := r.graph.setDeps k deps } := by
  have hdeps := h.update k (f := fun e => { e with deps := deps })
    (g := fun n => { n with deps := deps }) (fun _ _ => rfl) fun _ => rfl
  have hlinked := (hdeps.from_unlinking (s := s) k
    ((r.graph.node k).deps.keys.filter fun dep => !deps.contains dep) deps.keys o
    after).andThen fun h => h.from_linking k deps.keys o after
  refine .step rfl ?_ hlinked
  have hsame : (l.entry k).deps = (r.graph.node k).deps := by rw [h.entry, Entry.deps_join]
  simp only [Stage.step, hsame]
  rfl

/-! ## Outcomes -/

section Outcomes

variable (h : Reflects (inHand k f) l r)
  (hf : ∀ t, r.tasks.get? k = some t → (f t).waiters = t.waiters)

include h hf

/-- A key completes with a value. -/
theorem from_publishing_value (v : D.Value) (after : After D) :
    ComesTo s (l, .publishing k (.value v) after) after.stage asKept
      (({ r with graph := r.graph.publish k (.value v) s.version } : Round D).release s k
        (if r.graph.changes k (.value v) then .builtChanged else .builtSame)) := by
  have hput := h.settle (g := fun n => n.publish (.value v) s.version)
    (e := (l.entry k).publish (.value v) s.version) (by rw [h.entry, Entry.publish_join])
  have hcompletion : Live.completion (l.entry k) (.value v) =
      if r.graph.changes k (.value v) then .builtChanged else .builtSame := by
    rw [h.entry, Live.completion, Entry.holds_join, Graph.changes]
    cases (r.graph.node k).holds (.value v) with
    | true => rfl
    | false => rfl
  refine .step rfl ?_ (from_reporting
    (r := { r with graph := r.graph.publish k (.value v) s.version }) hput _ after)
  simp only [Stage.step, Live.finish, hcompletion, h.waiters hf, Outcome.value?]
  rfl

/-- A key completes with a failure. -/
theorem from_publishing_failure (e : Failure D.Key D.Fault) (after : After D) :
    ComesTo s (l, .publishing k (.failure e) after) after.stage asKept
      (({ r with
        graph := r.graph.publish k (.failure e) s.version
        stopping := r.stopping || !s.keepGoing } : Round D).release s k .failed) := by
  have hput := h.settle (g := fun n => n.publish (.failure e) s.version)
    (e := (l.entry k).publish (.failure e) s.version) (by rw [h.entry, Entry.publish_join])
  let l' : Live D := l.put k ((l.entry k).publish (.failure e) s.version)
  cases hgoing : s.keepGoing with
  | true =>
      have hput' : Reflects asKept l' { r with
          graph := r.graph.publish k (.failure e) s.version
          stopping := r.stopping || !true
          tasks := r.tasks.erase k } :=
        { hput with stopping := hput.stopping.trans (Bool.or_false _).symm }
      refine .step rfl ?_ (from_reporting (r := { r with
        graph := r.graph.publish k (.failure e) s.version
        stopping := r.stopping || !true }) hput' .failed after)
      simp only [Stage.step, Live.finish, Live.completion, hgoing, h.waiters hf, Bool.or_true,
        if_true]
      rfl
  | false =>
      have hput' : Reflects asKept { l' with stopping := true } { r with
          graph := r.graph.publish k (.failure e) s.version
          stopping := r.stopping || !false
          tasks := r.tasks.erase k } :=
        { hput with stopping := (Bool.or_true _).symm }
      have hslow : (Stage.publishing k (.failure e) after).step s l =
          (l', .slowing k (r.waiters k) after) := by
        simp only [Stage.step, Live.finish, hgoing, h.waiters hf]
        rfl
      exact .step rfl hslow (.step rfl rfl (from_reporting (r := { r with
        graph := r.graph.publish k (.failure e) s.version
        stopping := r.stopping || !false }) hput' .failed after))

/-- A key completes with the outcome it has. -/
theorem from_confirming :
    ComesTo s (l, .confirming k) .idle asKept (r.completeClean s k) := by
  have hput := h.settle (g := fun n => n.confirm s.version)
    (e := (l.entry k).confirm s.version) (by rw [h.entry, Entry.confirm_join])
  refine .step rfl ?_ (from_reporting (r := { r with graph := r.graph.confirm k s.version }) hput
    .clean .idle)
  simp only [Stage.step, h.waiters hf]
  rfl

/-- A key is built. -/
theorem from_recording_value (deps : DepGroups D.Key) (v : D.Value) (after : After D) :
    ComesTo s (l, .recording k deps (.value v) after) after.stage asKept
      (r.completeBuilt s k deps v) := by
  refine (h.from_recording k deps (.value v) after).andThen fun h => ?_
  have hpublish := h.from_publishing_value (s := s) hf v after
  rw [Graph.changes_setDeps] at hpublish
  exact hpublish

/-- A key fails, with new dependencies. -/
theorem from_recording_failure (deps : DepGroups D.Key) (e : Failure D.Key D.Fault)
    (after : After D) :
    ComesTo s (l, .recording k deps (.failure e) after) after.stage asKept
      (r.completeFailed s k (some deps) e) :=
  (h.from_recording k deps (.failure e) after).andThen fun h =>
    h.from_publishing_failure hf e after

end Outcomes

/-! ## Breaking cycles -/

/-- A member of a cycle fails. -/
theorem from_breaking_one (h : Reflects asKept l r) (found : List (Cycle D.Key)) (k : D.Key)
    (members : List D.Key) :
    ComesTo s (l, .breaking found (k :: members)) (.breaking found members) asKept
      (r.failMember s found k) := by
  have htask := h.task_eq k
  have hkept : Reflects (inHand k id) l r := by rwa [inHand_id]
  unfold Round.failMember
  cases ht : r.tasks.get? k with
  | none =>
      rw [ht] at htask
      refine .step rfl ?_ (.here h)
      simp only [Stage.step, Live.failMember, htask]
  | some t =>
      rw [ht] at htask
      let drop (t : Task D) : Task D := { t with requested := ∅ }
      let e : Failure D.Key D.Fault := .ofCycles (Round.cyclesOf found k)
      by_cases hmode : t.mode = .rebuild
      · have hdrop : (l.entry k).retask drop = (l.entry k).retask fun _ => drop t := by
          rw [h.entry, ht]
          rfl
        simp only [if_pos hmode]
        refine .step rfl ?_ ((hkept.keep ht drop).from_recording_failure (fun _ _ => rfl)
          t.requested e (.breaking found members))
        simp only [Stage.step, Live.failMember, htask, if_pos hmode]
        exact congrArg (fun entry => (l.put k entry,
          (.recording k t.requested (.failure e) (.breaking found members) : Stage D))) hdrop
      · simp only [if_neg hmode]
        refine .step rfl ?_ (hkept.from_publishing_failure (fun _ _ => rfl) e
          (.breaking found members))
        simp only [Stage.step, Live.failMember, htask, if_neg hmode]
        rfl

/-- All members of some cycles fail. -/
theorem from_breaking (h : Reflects asKept l r) (found : List (Cycle D.Key))
    (members : List D.Key) :
    ComesTo s (l, .breaking found members) .idle asKept
      (members.foldl (Round.failMember s found) r) := by
  induction members generalizing l r with
  | nil => exact .step rfl rfl (.here h)
  | cons k rest ih => exact (h.from_breaking_one found k rest).andThen ih

/-! ## Opening -/

/-- A root is brought under evaluation. -/
theorem from_opening_one (h : Reflects asKept l r) (root : D.Key) (roots : List D.Key) :
    ComesTo s (l, .opening (root :: roots)) (.opening roots) asKept (r.demand s root) := by
  have hcreate := h.create root
  have hroot : root ∈ (l.store.create root).keys := Store.mem_keys_create _ _
  refine .step rfl rfl ?_
  rcases Round.demand_cases s r root with ⟨hknown, he⟩ | ⟨hc, hnone, he⟩
  · obtain ⟨hbegins, hbegin⟩ :=
      hcreate.begin_of_known (x := root) (by simpa [Graph.isComplete] using hknown)
    rw [he]
    refine .step rfl ?_ (.here (hcreate.put_self hroot))
    simp only [Stage.step, hbegins, hbegin]
    rfl
  · have hc' : (r.graph.create root).isComplete root = false := by simpa [Graph.isComplete] using hc
    obtain ⟨hbegins, hbegin⟩ := hcreate.begin_of_unknown hc' hnone
    have htouch := (hcreate.give hroot hc'
      (t := .start ((r.graph.create root).node root).status) rfl fun _ _ => rfl).from_touching
        (s := s) root (.opening roots)
    rw [he]
    rw [Round.enqueue_eq, Graph.node_create] at htouch
    refine .step rfl ?_ htouch
    simp only [Stage.step, hbegins, hbegin, Graph.node_create]
    rfl

/-- All roots are brought under evaluation. -/
theorem from_opening (h : Reflects asKept l r) (roots : List D.Key) :
    ComesTo s (l, .opening roots) .idle asKept (roots.foldl (Round.demand s) r) := by
  induction roots generalizing l r with
  | nil => exact .step rfl rfl (.here h)
  | cons root rest ih => exact (h.from_opening_one root rest).andThen ih

end Reflects

end MemoGraph
