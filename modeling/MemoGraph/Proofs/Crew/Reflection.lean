import MemoGraph.Proofs.Crew.Steps
import MemoGraph.Proofs.Round.Reading

/-!
# Entries that show a round

A round of one worker keeps nodes and tasks apart, while an entry holds both.  Entries *reflect* a
round if each of them is made of the node and the task of its key.  In the middle of an action the
two may record at different moments how far the task has come, so tasks are compared through a
*view*, which says for each key what its entry holds in place of the task of the round.
-/

set_option autoImplicit false

namespace MemoGraph

variable {D : Domain}

namespace Entry

/-- The entry of a node, with the task that a round keeps for its key. -/
def join (n : Node D) (t? : Option (Task D)) : Entry D :=
  { ofNode n with
    phase := if t?.isSome then .evaluating else .resting n.status
    building := t?.map fun t => ⟨n.status, t⟩ }

section Join

variable (n : Node D) (t? : Option (Task D))

@[simp] theorem deps_join : (join n t?).deps = n.deps := rfl

@[simp] theorem changedAt_join : (join n t?).changedAt = n.changedAt := rfl

@[simp] theorem evaluatedAt_join : (join n t?).evaluatedAt = n.evaluatedAt := rfl

@[simp] theorem holds_join (o : Outcome D) : (join n t?).node.holds o = n.holds o := rfl

@[simp] theorem publish_join (o : Outcome D) (version : Version) :
    (join n t?).publish o version = join (n.publish o version) none := rfl

@[simp] theorem confirm_join (version : Version) :
    (join n t?).confirm version = join (n.confirm version) none := rfl

@[simp] theorem task?_join : (join n t?).task? = t? := by
  cases t? with
  | none => rfl
  | some t => rfl

@[simp] theorem base_join : (join n t?).base = n := by
  cases t? with
  | none => rfl
  | some t => rfl

@[simp] theorem retask_join (f : Task D → Task D) : (join n t?).retask f = join n (t?.map f) := by
  cases t? with
  | none => rfl
  | some t => rfl

theorem isComplete_join (h : t? = none ∨ n.isComplete = false) :
    (join n t?).node.isComplete = n.isComplete := by
  cases t? with
  | none => rfl
  | some t =>
      rw [h.resolve_left (Option.some_ne_none t)]
      rfl

theorem settled_join (h : t? = none ∨ n.isComplete = false) :
    (join n t?).node.settled? = n.settled? := by
  cases t? with
  | none => rfl
  | some t =>
      have hn : n.isComplete = false := h.resolve_left (Option.some_ne_none t)
      rw [Node.settled?, Node.settled?, hn]
      rfl

end Join

/-- A key that is under evaluation does not begin. -/
theorem begin_join_some (n : Node D) (t : Task D) :
    (join n (some t)).begins = false ∧ (join n (some t)).begin = join n (some t) :=
  ⟨rfl, rfl⟩

/-- A complete key does not begin. -/
theorem begin_join_of_complete {n : Node D} (h : n.isComplete = true) :
    (join n none).begins = false ∧ (join n none).begin = join n none := by
  have hn : n.status = .current := of_decide_eq_true h
  have hphase : (join n none).phase = .resting n.status := rfl
  constructor
  · rw [begins, hphase, hn]
    rfl
  · rw [begin, hphase, hn]
    rfl

/-- Any other key does. -/
theorem begin_join_of_incomplete {n : Node D} (h : n.isComplete = false) :
    (join n none).begins = true ∧ (join n none).begin = join n (some (.start n.status)) := by
  have hn : n.status ≠ .current := of_decide_eq_false h
  have hphase : (join n none).phase = .resting n.status := rfl
  constructor
  · simp only [begins, hphase, decide_eq_true_eq]
    exact hn
  · simp only [begin, hphase, if_neg hn]
    rfl

end Entry

/-! ## Views -/

/-- Every task as it is. -/
def asKept (_ : D.Key) (t : Task D) : Task D := t

/-- Every task as it is, but that of `k` as `f` makes it. -/
def inHand (k : D.Key) (f : Task D → Task D) (x : D.Key) (t : Task D) : Task D :=
  if x = k then f t else t

section InHand

variable {k : D.Key} {f : Task D → Task D}

theorem inHand_self (k : D.Key) (f : Task D → Task D) : inHand k f k = f :=
  funext fun _ => if_pos rfl

theorem inHand_of_ne {x : D.Key} (h : x ≠ k) (f : Task D → Task D) (t : Task D) :
    inHand k f x t = t :=
  if_neg h

theorem inHand_id (k : D.Key) : (inHand k id : D.Key → Task D → Task D) = asKept :=
  funext fun _ => funext fun t => ite_self t

end InHand

/-- A view that leaves the waiters of all tasks alone. -/
def KeepsWaiters (view : D.Key → Task D → Task D) : Prop :=
  ∀ x t waiters, view x { t with waiters := waiters } = { view x t with waiters := waiters }

theorem KeepsWaiters.waiters {view : D.Key → Task D → Task D} (h : KeepsWaiters view) (x : D.Key)
    (t : Task D) : (view x t).waiters = t.waiters := by
  have hsame : view x t = { view x t with waiters := t.waiters } := h x t t.waiters
  rw [hsame]

theorem keepsWaiters_inHand (k : D.Key) {f : Task D → Task D}
    (hf : ∀ t waiters, f { t with waiters := waiters } = { f t with waiters := waiters }) :
    KeepsWaiters (inHand k f) := by
  intro x t waiters
  unfold inHand
  split
  · exact hf t waiters
  · rfl

/-! ## Entries that reflect a round -/

/-- The entries show the round, if its tasks are seen through `view`. -/
structure Reflects (view : D.Key → Task D → Task D) (l : Live D) (r : Round D) : Prop where
  /-- Keys arrived in the same order. -/
  keys : l.store.keys = r.graph.keys
  /-- Every entry is made of node and task. -/
  entry : ∀ x, l.entry x = .join (r.graph.node x) ((r.tasks.get? x).map (view x))
  /-- Only incomplete keys have tasks. -/
  unfinished : ∀ x, r.tasks.get? x = none ∨ r.graph.isComplete x = false
  /-- The queues agree. -/
  queue : l.queue = r.queue
  /-- A failure stops both. -/
  stopping : l.stopping = r.stopping
  /-- Work is skipped once the round is given up. -/
  failed : l.failed = r.aborted.isSome
  /-- Both are given up for the same reason. -/
  fatal : l.fatal = r.aborted
  /-- Both are asked to stop. -/
  interrupted : l.interrupted = r.interrupted
  /-- Invocations are counted alike. -/
  calls : l.calls = r.calls
  /-- Observers are told the same. -/
  log : l.log = r.log

namespace Reflects

variable {view view' : D.Key → Task D → Task D} {l : Live D} {r r' : Round D} {k x : D.Key}
  {t : Task D} {f : Task D → Task D}

theorem task? (h : Reflects view l r) (x : D.Key) :
    (l.entry x).task? = (r.tasks.get? x).map (view x) := by
  rw [h.entry, Entry.task?_join]

theorem task_of_get? (h : Reflects (inHand k f) l r) (ht : r.tasks.get? k = some t) :
    (l.entry k).task? = some (f t) := by
  rw [h.task?, ht, inHand_self]
  rfl

/-- The same tasks are kept. -/
theorem task_eq (h : Reflects asKept l r) (x : D.Key) : (l.entry x).task? = r.tasks.get? x := by
  rw [h.task?]
  exact congrFun Option.map_id (r.tasks.get? x)

/-- Others see the same keys complete. -/
theorem isComplete (h : Reflects view l r) (x : D.Key) :
    (l.entry x).node.isComplete = r.graph.isComplete x := by
  rw [h.entry]
  exact Entry.isComplete_join _ _ ((h.unfinished x).imp (fun hx => by rw [hx]; rfl) id)

/-- Others see the same outcomes. -/
theorem settled (h : Reflects view l r) (x : D.Key) :
    (l.entry x).node.settled? = (r.graph.node x).settled? := by
  rw [h.entry]
  exact Entry.settled_join _ _ ((h.unfinished x).imp (fun hx => by rw [hx]; rfl) id)

theorem contains (h : Reflects view l r) (x : D.Key) : l.store.contains x = r.graph.contains x := by
  refine Bool.eq_iff_iff.mpr ?_
  rw [← Store.mem_keys_iff_contains, ← Graph.mem_keys_iff_contains, h.keys]

/-- A key under evaluation has an entry. -/
theorem known (h : Reflects view l r) (ht : r.tasks.get? x = some t) : x ∈ l.store.keys := by
  refine Store.mem_keys_iff_contains.mpr (Bool.not_eq_false _ ▸ fun hnot => ?_)
  have hentry : l.entry x = .fresh := Store.entry_of_not_contains hnot
  have htask := h.task? x
  rw [hentry, ht] at htask
  cases htask

/-- A key that is complete or under evaluation does not begin. -/
theorem begin_of_known (h : Reflects view l r)
    (hx : r.graph.isComplete x = true ∨ r.tasks.contains x = true) :
    (l.entry x).begins = false ∧ (l.entry x).begin = l.entry x := by
  rw [h.entry]
  cases ht : r.tasks.get? x with
  | some t => exact Entry.begin_join_some _ _
  | none => exact Entry.begin_join_of_complete (hx.resolve_right (by simp [Table.contains, ht]))

/-- Any other key does. -/
theorem begin_of_unknown (h : Reflects view l r) (hc : r.graph.isComplete x = false)
    (hnone : r.tasks.get? x = none) : (l.entry x).begins = true ∧
      (l.entry x).begin = .join (r.graph.node x) (some (.start (r.graph.node x).status)) := by
  rw [h.entry, hnone]
  exact Entry.begin_join_of_incomplete hc

/-- The waiters of a key. -/
theorem waiters (h : Reflects (inHand k f) l r)
    (hf : ∀ t, r.tasks.get? k = some t → (f t).waiters = t.waiters) :
    (l.entry k).waiters = r.waiters k := by
  unfold Round.waiters
  cases ht : r.tasks.get? k with
  | none =>
      rw [h.entry, ht]
      rfl
  | some t =>
      rw [h.entry, ht, inHand_self]
      exact congrArg OrderedSet.toList (hf t ht)

/-! ### Putting entries -/

/-- One entry is put, and node and task of its key change. -/
theorem put (h : Reflects view l r) {n : Node D} {t? : Option (Task D)}
    (hrest : r' = { r with graph := r'.graph, tasks := r'.tasks })
    (hkeys : (l.store.put k (.join n t?)).keys = r'.graph.keys)
    (hnode : ∀ x, r'.graph.node x = if x = k then n else r.graph.node x)
    (htask : ∀ x, (r'.tasks.get? x).map (view' x) =
      if x = k then t? else (r.tasks.get? x).map (view x))
    (hunfinished : t? = none ∨ n.isComplete = false) :
    Reflects view' (l.put k (.join n t?)) r' := by
  rw [hrest]
  refine { h with keys := hkeys, entry := fun x => ?_, unfinished := fun x => ?_ }
  · rw [Live.entry_put, hnode, htask]
    by_cases hx : x = k
    · simp [hx]
    · simp [hx, h.entry]
  · have hx := htask x
    simp only [Graph.isComplete, hnode]
    by_cases hxk : x = k
    · rw [if_pos hxk] at hx ⊢
      refine hunfinished.imp (fun ht => ?_) id
      rwa [ht, Option.map_eq_none_iff] at hx
    · rw [if_neg hxk] at hx ⊢
      refine (h.unfinished x).imp (fun hnone => ?_) id
      rwa [hnone, Option.map_none, Option.map_eq_none_iff] at hx

/-- Nothing but what is seen of each task matters. -/
theorem congr (h : Reflects view l r)
    (hrest : r' = { r with graph := r'.graph, tasks := r'.tasks })
    (hkeys : r'.graph.keys = r.graph.keys) (hnode : ∀ x, r'.graph.node x = r.graph.node x)
    (htask : ∀ x, (r'.tasks.get? x).map (view' x) = (r.tasks.get? x).map (view x)) :
    Reflects view' l r' := by
  rw [hrest]
  refine { h with keys := h.keys.trans hkeys.symm, entry := fun x => ?_, unfinished := fun x => ?_ }
  · rw [h.entry, hnode, htask]
  · have hx := htask x
    simp only [Graph.isComplete, hnode]
    refine (h.unfinished x).imp (fun hnone => ?_) id
    rwa [hnone, Option.map_none, Option.map_eq_none_iff] at hx

/-- The entry of a known key is put as it is. -/
theorem put_self (h : Reflects view l r) (hx : x ∈ l.store.keys) :
    Reflects view (l.put x (l.entry x)) r := by
  have hsame : l.store.put x (l.entry x) = l.store := Store.put_entry hx
  rw [Live.put, hsame]
  exact h

/-! ### Tasks -/

/-- A known key that is not complete is given a task. -/
theorem give (h : Reflects view l r) (hk : k ∈ l.store.keys) (hc : r.graph.isComplete k = false)
    {t' : Task D} (hsame : view' k t = t') (hother : ∀ x ≠ k, view' x = view x) :
    Reflects view' (l.put k (.join (r.graph.node k) (some t'))) (r.putTask k t) := by
  refine h.put rfl ?_ (fun x => ?_) (fun x => ?_) (.inr hc)
  · rw [Store.keys_put, if_pos hk]
    exact h.keys
  · split
    · rename_i hx
      rw [hx]
      rfl
    · rfl
  · simp only [Round.putTask, Table.get?_insert]
    by_cases hx : x = k
    · simp [hx, hsame]
    · simp [hx, hother x hx]

/-- The round keeps something else for a key. -/
theorem retask (h : Reflects (inHand k f) l r) (ht : r.tasks.get? k = some t)
    (g : Task D → Task D) (t' : Task D) :
    Reflects (inHand k g) (l.retask k (g t')) (r.putTask k t') := by
  have hentry : (l.entry k).retask (fun _ => g t') = .join (r.graph.node k) (some (g t')) := by
    rw [h.entry, ht]
    simp
  rw [Live.retask, hentry]
  refine h.give (h.known ht) ((h.unfinished k).resolve_left (by simp [ht])) ?_ fun x hx => ?_
  · rw [inHand_self]
  · funext t
    rw [inHand_of_ne hx, inHand_of_ne hx]

/-- An entry holds something else, and the round does not know yet. -/
theorem keep (h : Reflects (inHand k f) l r) (ht : r.tasks.get? k = some t)
    (g : Task D → Task D) : Reflects (inHand k g) (l.retask k (g t)) r := by
  refine (h.retask ht g t).congr rfl rfl (fun _ => rfl) fun x => ?_
  simp only [Round.putTask, Table.get?_insert]
  by_cases hx : x = k
  · simp [hx, ht]
  · simp [hx]

/-- A reader waits for a key. -/
theorem await (h : Reflects view l r) (hkeeps : KeepsWaiters view) {dep : D.Key}
    (hdep : dep ∈ l.store.keys) (reader : D.Key) :
    ((l.entry dep).await reader).1 = (r.await reader dep).1 ∧
      Reflects view (l.put dep ((l.entry dep).await reader).2) (r.await reader dep).2 := by
  have htask := h.task? dep
  unfold Entry.await Round.await
  cases ht : r.tasks.get? dep with
  | none =>
      rw [ht] at htask
      simp only [htask, Option.map_none]
      exact ⟨trivial, h.put_self hdep⟩
  | some t =>
      rw [ht] at htask
      simp only [htask, Option.map_some, hkeeps.waiters]
      split
      · exact ⟨rfl, h.put_self hdep⟩
      · let t' : Task D := { t with waiters := t.waiters.insert reader }
        have hview : view dep t' = { view dep t with waiters := t.waiters.insert reader } :=
          hkeeps dep t _
        have hentry :
            (l.entry dep).retask (fun t => { t with waiters := t.waiters.insert reader }) =
              .join (r.graph.node dep) (some (view dep t')) := by
          rw [h.entry, ht, hview, ← hkeeps.waiters dep t]
          simp
        refine ⟨rfl, ?_⟩
        dsimp only
        rw [hentry]
        exact h.give hdep ((h.unfinished dep).resolve_left (by simp [ht])) rfl fun _ _ => rfl

/-! ### Nodes -/

/-- A key is looked up, and enters with a fresh node if it is unknown. -/
theorem create (h : Reflects view l r) (x : D.Key) :
    Reflects view { l with store := l.store.create x } { r with graph := r.graph.create x } := by
  refine { h with keys := ?_, entry := fun y => ?_, unfinished := fun y => ?_ }
  · rw [Store.keys_create, Graph.keys_create, h.keys]
  · rw [Graph.node_create]
    exact (Store.entry_create l.store x y).trans (h.entry y)
  · simpa [Graph.isComplete] using h.unfinished y

theorem keys_update (h : Reflects view l r) (x : D.Key) (e : Entry D) (g : Node D → Node D) :
    (l.store.put x e).keys = (r.graph.update x g).keys := by
  rw [Store.keys_put, Graph.keys_update, h.keys]

/-- One node changes, but not its status. -/
theorem update (h : Reflects view l r) (x : D.Key) {f : Entry D → Entry D} {g : Node D → Node D}
    (hjoin : ∀ n t?, f (.join n t?) = .join (g n) t?) (hstatus : ∀ n, (g n).status = n.status) :
    Reflects view { l with store := l.store.update x f }
      { r with graph := r.graph.update x g } := by
  have hentry : f (l.entry x) = .join (g (r.graph.node x)) ((r.tasks.get? x).map (view x)) := by
    rw [h.entry, hjoin]
  have hput : ({ l with store := l.store.update x f } : Live D) =
      l.put x (.join (g (r.graph.node x)) ((r.tasks.get? x).map (view x))) := by
    rw [← hentry]
    rfl
  rw [hput]
  refine h.put rfl (h.keys_update _ _ _) (fun y => Graph.node_update _ _ _ _) (fun y => ?_) ?_
  · split
    · rename_i hy
      rw [hy]
    · rfl
  · refine (h.unfinished x).imp (fun hx => ?_) fun hx => ?_
    · rw [hx]
      rfl
    · rw [Node.isComplete, hstatus]
      exact hx

/-- One known node changes, but not its status. -/
theorem adjust (h : Reflects view l r) (x : D.Key) {f : Entry D → Entry D} {g : Node D → Node D}
    (hjoin : ∀ n t?, f (.join n t?) = .join (g n) t?) (hstatus : ∀ n, (g n).status = n.status) :
    Reflects view { l with store := l.store.adjust x f }
      { r with graph := r.graph.adjust x g } := by
  unfold Store.adjust Graph.adjust
  rw [h.contains]
  split
  · exact h.update x hjoin hstatus
  · exact h

/-- A key completes, and its task is dropped. -/
theorem settle (h : Reflects (inHand k f) l r) {g : Node D → Node D} {e : Entry D}
    (he : e = .join (g (r.graph.node k)) none) :
    Reflects asKept (l.put k e)
      { r with graph := r.graph.update k g, tasks := r.tasks.erase k } := by
  rw [he]
  refine h.put rfl (h.keys_update _ _ _) (fun x => Graph.node_update _ _ _ _) (fun x => ?_)
    (.inl rfl)
  simp only [Table.get?_erase]
  by_cases hx : x = k
  · simp [hx]
  · rw [if_neg hx, if_neg hx]
    exact congrFun (congrArg Option.map (funext fun t => (inHand_of_ne hx f t).symm)) _

/-! ### Events -/

/-- Observers are told. -/
theorem record {s : Setting D} (h : Reflects view l r) (e : Event D) :
    Reflects view (l.record s e) (r.record s e) :=
  { h with
    interrupted := by
      change (l.interrupted || s.observer (e :: l.log)) =
        (r.interrupted || s.observer (e :: r.log))
      rw [h.interrupted, h.log]
    log := congrArg (e :: ·) h.log }

/-- An invocation is counted. -/
theorem count {s : Setting D} (h : Reflects view l r) (k : D.Key) :
    Reflects view (({ l with calls := l.calls.insert k ((l.calls.get? k).getD 0 + 1) } :
      Live D).record s (.called k)) (r.countCall s k).2 := by
  have hcalls : Reflects view { l with calls := l.calls.insert k ((l.calls.get? k).getD 0 + 1) }
      { r with calls := r.calls.insert k ((r.calls.get? k).getD 0 + 1) } :=
    { h with calls := by rw [h.calls] }
  exact hcalls.record (.called k)

end Reflects

end MemoGraph
