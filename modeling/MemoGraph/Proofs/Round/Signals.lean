import MemoGraph.Proofs.Graph.Reliance
import MemoGraph.Proofs.Round.Reading

/-!
# Completing a key

Every completion publishes something for one key, drops its task and sends a signal to each of its
waiters.  The three completions of a round differ only in what they publish, so `Completes` states
once what they leave of tasks and queue.
-/

set_option autoImplicit false

namespace MemoGraph

variable {D : Domain}

/-- A task that received one signal. -/
def Task.notified (t : Task D) : Task D :=
  { t with
    expected := t.expected - 1
    active := t.active || decide (t.expected - 1 = 0) }

namespace Round

/-- Whether one more signal puts a key back to work. -/
def Wakes (r : Round D) (k : D.Key) : Prop :=
  ∃ t, r.tasks.get? k = some t ∧ t.expected - 1 = 0 ∧ t.active = false

instance (r : Round D) (k : D.Key) : Decidable (r.Wakes k) :=
  match h : r.tasks.get? k with
  | none => isFalse fun hw => by
      obtain ⟨t, ht, -⟩ := hw
      rw [h] at ht
      cases ht
  | some t => decidable_of_iff (t.expected - 1 = 0 ∧ t.active = false)
      ⟨fun ht => ⟨t, h, ht⟩, fun ⟨t', ht', hw⟩ => by
        obtain rfl : t = t' := Option.some.inj (h.symm.trans ht')
        exact hw⟩

theorem wakes_congr {r r' : Round D} {k : D.Key} (h : r.tasks.get? k = r'.tasks.get? k) :
    r.Wakes k ↔ r'.Wakes k := by
  simp only [Wakes, h]

/-! ## Signals -/

/-- The second round is the first after a signal to each of `waiters`. -/
structure Signalled (waiters : List D.Key) (r r' : Round D) : Prop where
  /-- Signals touch tasks and queue only. -/
  rest : r' = { r with tasks := r'.tasks, queue := r'.queue }
  /-- Each waiter's task is notified. -/
  tasks : ∀ x, r'.tasks.get? x =
    if x ∈ waiters then (r.tasks.get? x).map Task.notified else r.tasks.get? x
  /-- Those that wake are queued, in order, unless the round is stopping. -/
  queue : r'.queue = r.queue ++ if r.stopping then [] else waiters.filter fun x => r.Wakes x

/-- One signal. -/
theorem signalled_signal (r : Round D) (waiter : D.Key) :
    Signalled [waiter] r (r.signal waiter) := by
  unfold signal
  cases ht : r.tasks.get? waiter with
  | none =>
      have hw : ¬ r.Wakes waiter := by
        rintro ⟨t, ht', -⟩
        rw [ht] at ht'
        cases ht'
      refine ⟨rfl, fun x => ?_, by simp [hw]⟩
      by_cases hx : x = waiter
      · simp [hx, ht]
      · simp [hx]
  | some t =>
      have hw : r.Wakes waiter ↔ t.expected - 1 = 0 ∧ t.active = false := by
        constructor
        · rintro ⟨t', ht', hwakes⟩
          rw [ht] at ht'
          exact Option.some.inj ht' ▸ hwakes
        · exact fun hwakes => ⟨t, ht, hwakes⟩
      simp only
      split
      · rename_i hwakes
        rw [enqueue_eq]
        refine ⟨rfl, fun x => ?_, ?_⟩
        · by_cases hx : x = waiter
          · simp [hx, ht, putTask, Task.notified, hwakes.1]
          · simp [hx, putTask, Table.get?_insert]
        · cases hs : r.stopping with
          | true => simp [putTask, hs]
          | false => simp [putTask, hs, hw.mpr hwakes]
      · rename_i hwakes
        refine ⟨rfl, fun x => ?_, ?_⟩
        · by_cases hx : x = waiter
          · -- No wish to wake means: active already, or more signals to come.
            have hactive : (t.active || decide (t.expected - 1 = 0)) = t.active := by
              cases ha : t.active with
              | true => rfl
              | false => simpa [ha] using hwakes
            simp [hx, ht, putTask, Task.notified, hactive]
          · simp [hx, putTask, Table.get?_insert]
        · simp [putTask, mt hw.mp hwakes]

/-- Signals to distinct waiters do not interfere. -/
theorem signalled_foldl {waiters : List D.Key} (h : waiters.Nodup) (r : Round D) :
    Signalled waiters r (waiters.foldl signal r) := by
  induction waiters generalizing r with
  | nil => exact ⟨rfl, fun x => by simp, by simp⟩
  | cons w rest ih =>
      obtain ⟨hw, hrest⟩ := List.nodup_cons.mp h
      obtain ⟨one, otasks, oqueue⟩ := signalled_signal r w
      obtain ⟨more, mtasks, mqueue⟩ := ih hrest (r.signal w)
      have hother (x : D.Key) (hx : x ∈ rest) : (r.signal w).tasks.get? x = r.tasks.get? x := by
        have hne : x ≠ w := fun e => hw (e ▸ hx)
        rw [otasks, if_neg (by simpa using hne)]
      have hstop : (r.signal w).stopping = r.stopping := by rw [one]
      refine ⟨?_, fun x => ?_, ?_⟩
      · rw [List.foldl_cons, more, one]
      · rw [List.foldl_cons, mtasks]
        by_cases hx : x ∈ rest
        · rw [if_pos hx, hother x hx, if_pos (List.mem_cons_of_mem w hx)]
        · rw [if_neg hx, otasks]
          by_cases hxw : x = w
          · simp [hxw]
          · simp [hx, hxw]
      · have hwakes : (rest.filter fun x => decide ((r.signal w).Wakes x)) =
            rest.filter fun x => decide (r.Wakes x) := by
          exact List.filter_congr fun x hx => decide_eq_decide.mpr (wakes_congr (hother x hx))
        rw [List.foldl_cons, mqueue, oqueue, hstop, hwakes, List.append_assoc]
        cases hs : r.stopping with
        | true => simp
        | false => simp [List.filter_cons]; split <;> simp

/-! ## Completions -/

/-- The second round is the first after the completion of a key, as far as tasks and queue tell. -/
structure Completes (s : Setting D) (k : D.Key) (how : Completion) (r r' : Round D) : Prop where
  /-- The task of the key is dropped, the tasks of its waiters are notified. -/
  tasks : ∀ x, r'.tasks.get? x =
    if x = k then none
    else if x ∈ r.waiters k then (r.tasks.get? x).map Task.notified else r.tasks.get? x
  /-- Waiters that wake are queued unless the round is stopping. -/
  queue : r'.queue = r.queue ++
    if r'.stopping then [] else (r.waiters k).filter fun x => decide (x ≠ k) && r.Wakes x
  /-- Only the failure of a key in a round that does not keep going starts a stop. -/
  stopping : r'.stopping = (r.stopping || (decide (how = .failed) && !s.keepGoing))
  /-- The round is not given up. -/
  aborted : r'.aborted = r.aborted
  /-- No cycle is broken. -/
  cycles : r'.cycles = r.cycles
  /-- The observer may ask to stop. -/
  interrupted : r'.interrupted = (r.interrupted || s.observer r'.log)
  /-- It is told. -/
  log : r'.log = .completed k how :: r.log

namespace Completes

variable {s : Setting D} {k : D.Key} {how : Completion} {r r' : Round D}

/-- A task that is left is an old one, notified if its key waited for the completed one. -/
theorem get?_eq_some_iff (h : Completes s k how r r') {x : D.Key} {t : Task D} :
    r'.tasks.get? x = some t ↔ x ≠ k ∧ ∃ t₀, r.tasks.get? x = some t₀ ∧
      (if x ∈ r.waiters k then t₀.notified else t₀) = t := by
  rw [h.tasks]
  by_cases hxk : x = k
  · simp [hxk]
  · rw [if_neg hxk]
    split
    · simp [hxk]
    · simp [hxk]

/-- Signals aside, a task that is left is an old one. -/
theorem back (h : Completes s k how r r') {x : D.Key} {t : Task D}
    (ht : r'.tasks.get? x = some t) :
    x ≠ k ∧ ∃ t₀, r.tasks.get? x = some t₀ ∧ t.mode = t₀.mode ∧ t.requested = t₀.requested ∧
      t.awaited = t₀.awaited := by
  obtain ⟨hxk, t₀, ht₀, rfl⟩ := h.get?_eq_some_iff.mp ht
  refine ⟨hxk, t₀, ht₀, ?_⟩
  split
  · exact ⟨rfl, rfl, rfl⟩
  · exact ⟨rfl, rfl, rfl⟩

/-- The queue gains the keys that wake, if the round is not stopping. -/
theorem mem_queue_iff (h : Completes s k how r r') {x : D.Key} :
    x ∈ r'.queue ↔
      x ∈ r.queue ∨ r'.stopping = false ∧ x ∈ r.waiters k ∧ x ≠ k ∧ r.Wakes x := by
  rw [h.queue, List.mem_append]
  cases r'.stopping with
  | true => simp
  | false => simp

end Completes

theorem nodup_waiters (r : Round D) (k : D.Key) : (r.waiters k).Nodup := by
  unfold waiters
  split
  · exact OrderedSet.nodup _
  · exact List.nodup_nil

/-- Signalling changes no node. -/
@[simp] theorem graph_release (s : Setting D) (r : Round D) (k : D.Key) (how : Completion) :
    (r.release s k how).graph = r.graph := by
  rw [release, (signalled_foldl (nodup_waiters r k) _).rest]
  rfl

/-- Releasing a key whose graph and stop flag are already those after its completion. -/
theorem completes_release (s : Setting D) (r : Round D) (k : D.Key) (how : Completion)
    (graph : Graph D) (stopping : Bool)
    (h : stopping = (r.stopping || (decide (how = .failed) && !s.keepGoing))) :
    Completes s k how r
      (({ r with graph := graph, stopping := stopping } : Round D).release s k how) := by
  have hwaiters : ({ r with graph := graph, stopping := stopping } : Round D).waiters k =
      r.waiters k := rfl
  simp only [release, hwaiters]
  have herase (x : D.Key) : (r.tasks.erase k).get? x = if x = k then none else r.tasks.get? x :=
    Table.get?_erase r.tasks k x
  obtain ⟨rest, tasks, queue⟩ := signalled_foldl (nodup_waiters r k)
    (({ r with graph := graph, stopping := stopping, tasks := r.tasks.erase k } :
      Round D).record s (.completed k how))
  rw [rest]
  refine ⟨fun x => ?_, ?_, h, rfl, rfl, rfl, rfl⟩
  · simp only [tasks, tasks_record, herase]
    by_cases hx : x = k
    · simp [hx]
    · simp [hx]
  · simp only [queue, queue_record, stopping_record]
    congr 2
    refine List.filter_congr fun x _ => ?_
    by_cases hx : x = k
    · simp [Wakes, herase, hx]
    · have hx' : (r.tasks.erase k).get? x = r.tasks.get? x := (herase x).trans (if_neg hx)
      rw [decide_eq_true hx, Bool.true_and]
      exact decide_eq_decide.mpr (wakes_congr hx')

theorem completes_built (s : Setting D) (r : Round D) (k : D.Key) (deps : DepGroups D.Key)
    (v : D.Value) : ∃ how, how ≠ .failed ∧ how ≠ .clean ∧
      Completes s k how r (r.completeBuilt s k deps v) := by
  unfold completeBuilt
  split
  · exact ⟨.builtChanged, by simp, by simp, completes_release s r k _ _ r.stopping (by simp)⟩
  · exact ⟨.builtSame, by simp, by simp, completes_release s r k _ _ r.stopping (by simp)⟩

theorem completes_failed (s : Setting D) (r : Round D) (k : D.Key)
    (deps : Option (DepGroups D.Key)) (e : Failure D.Key D.Fault) :
    Completes s k .failed r (r.completeFailed s k deps e) :=
  completes_release s r k .failed _ _ (by simp)

theorem completes_clean (s : Setting D) (r : Round D) (k : D.Key) :
    Completes s k .clean r (r.completeClean s k) :=
  completes_release s r k .clean _ r.stopping (by simp)

/-! ## What completions store -/

@[simp] theorem graph_completeBuilt (s : Setting D) (r : Round D) (k : D.Key)
    (deps : DepGroups D.Key) (v : D.Value) :
    (r.completeBuilt s k deps v).graph =
      (r.graph.setDeps k deps).publish k (.value v) s.version :=
  graph_release s _ k _

@[simp] theorem graph_completeFailed (s : Setting D) (r : Round D) (k : D.Key)
    (deps : Option (DepGroups D.Key)) (e : Failure D.Key D.Fault) :
    (r.completeFailed s k deps e).graph =
      (match deps with
        | some deps => r.graph.setDeps k deps
        | none => r.graph).publish k (.failure e) s.version :=
  graph_release s _ k _

/-- Failing a key records the dependencies it comes with, if there are any. -/
theorem deps_completeFailed (s : Setting D) (r : Round D) (k : D.Key)
    (deps : Option (DepGroups D.Key)) (e : Failure D.Key D.Fault) :
    ((r.completeFailed s k deps e).graph.node k).deps = deps.getD (r.graph.node k).deps := by
  rw [graph_completeFailed, Graph.node_publish, if_pos rfl]
  cases deps with
  | none => rfl
  | some deps => exact (Graph.deps_setDeps r.graph k k deps).trans (if_pos rfl)

@[simp] theorem graph_completeClean (s : Setting D) (r : Round D) (k : D.Key) :
    (r.completeClean s k).graph = r.graph.confirm k s.version :=
  graph_release s _ k _

theorem settles_completeBuilt {s : Setting D} {r : Round D} {k : D.Key}
    (deps : DepGroups D.Key) (v : D.Value) (h : r.graph.isComplete k = false) :
    Graph.Settles s.version k r.graph (r.completeBuilt s k deps v).graph := by
  rw [graph_completeBuilt]
  exact Graph.settles_setDeps_publish _ deps (.value v) h

theorem settles_completeFailed {s : Setting D} {r : Round D} {k : D.Key}
    (deps : Option (DepGroups D.Key)) (e : Failure D.Key D.Fault)
    (h : r.graph.isComplete k = false) :
    Graph.Settles s.version k r.graph (r.completeFailed s k deps e).graph := by
  rw [graph_completeFailed]
  cases deps with
  | none => exact Graph.settles_publish (.failure e) h
  | some deps => exact Graph.settles_setDeps_publish _ deps (.failure e) h

theorem settles_completeClean (s : Setting D) (r : Round D) (k : D.Key) :
    Graph.Settles s.version k r.graph (r.completeClean s k).graph := by
  rw [graph_completeClean]
  exact Graph.settles_confirm

end Round

end MemoGraph
