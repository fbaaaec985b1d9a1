import MemoGraph.Round.Process

/-!
# What reading does to a round

Reading brings keys under evaluation and enters the reader among their waiters, and that is all it
does: what nodes store, how far the tasks under evaluation have come and how the round stands stay
as they are.  An induction principle carries properties through whole invocations and through the
check of a group, one read at a time.
-/

set_option autoImplicit false

namespace MemoGraph

variable {D : Domain}

/-- What a reader is told about a dependency with an outcome. -/
def Reply.ofOutcome (o : Outcome D) (changedAt : Version) : Reply D :=
  match o with
  | .value v => .value v changedAt
  | .failure e => .failed e changedAt

@[simp] theorem Reply.ofOutcome_value (v : D.Value) (changedAt : Version) :
    (Reply.ofOutcome (.value v) changedAt : Reply D) = .value v changedAt := rfl

@[simp] theorem Reply.ofOutcome_failure (e : Failure D.Key D.Fault) (changedAt : Version) :
    (Reply.ofOutcome (.failure e) changedAt : Reply D) = .failed e changedAt := rfl

namespace Round

/-! ## Bookkeeping -/

@[simp] theorem graph_record (s : Setting D) (r : Round D) (e : Event D) :
    (r.record s e).graph = r.graph := rfl

@[simp] theorem tasks_record (s : Setting D) (r : Round D) (e : Event D) :
    (r.record s e).tasks = r.tasks := rfl

@[simp] theorem queue_record (s : Setting D) (r : Round D) (e : Event D) :
    (r.record s e).queue = r.queue := rfl

@[simp] theorem stopping_record (s : Setting D) (r : Round D) (e : Event D) :
    (r.record s e).stopping = r.stopping := rfl

@[simp] theorem aborted_record (s : Setting D) (r : Round D) (e : Event D) :
    (r.record s e).aborted = r.aborted := rfl

@[simp] theorem cycles_record (s : Setting D) (r : Round D) (e : Event D) :
    (r.record s e).cycles = r.cycles := rfl

@[simp] theorem log_record (s : Setting D) (r : Round D) (e : Event D) :
    (r.record s e).log = e :: r.log := rfl

theorem interrupted_record {s : Setting D} {r : Round D} {e : Event D}
    (h : r.interrupted = true) : (r.record s e).interrupted = true := by
  simp [record, h]

/-- Queueing a key changes the queue at most. -/
theorem enqueue_eq (r : Round D) (k : D.Key) :
    r.enqueue k = { r with queue := if r.stopping then r.queue else r.queue ++ [k] } := by
  unfold enqueue
  split
  · rfl
  · rfl

/-- Demanding a key that is complete or has a task makes sure that it has a node.  Any other key
begins: it gets a task and, unless the round is stopping, a place in the queue. -/
theorem demand_cases (s : Setting D) (r : Round D) (k : D.Key) :
    ((r.graph.isComplete k = true ∨ r.tasks.contains k = true) ∧
      r.demand s k = { r with graph := r.graph.create k }) ∨
    (r.graph.isComplete k = false ∧ r.tasks.get? k = none ∧
      r.demand s k = { r with
        graph := r.graph.create k
        tasks := r.tasks.insert k (Task.start (r.graph.node k).status)
        queue := if r.stopping then r.queue else r.queue ++ [k]
        log := .enqueued k :: r.log
        interrupted := r.interrupted || s.observer (.enqueued k :: r.log) }) := by
  have hcreate : (r.graph.create k).isComplete k = r.graph.isComplete k := by
    simp [Graph.isComplete]
  by_cases h : r.graph.isComplete k = true ∨ r.tasks.contains k = true
  · exact .inl ⟨h, by simp only [demand, hcreate, Bool.or_eq_true, h, if_true]⟩
  · obtain ⟨hc, ht⟩ := not_or.mp h
    rw [Bool.not_eq_true] at hc ht
    refine .inr ⟨hc, by simpa [Table.contains] using ht, ?_⟩
    simp only [demand, hcreate, hc, ht, Bool.or_false, Bool.false_eq_true, if_false,
      Graph.node_create, enqueue_eq]
    rfl

/-- Demanding a key makes sure that it has a node and changes nothing else in the graph. -/
@[simp] theorem graph_demand (s : Setting D) (r : Round D) (k : D.Key) :
    (r.demand s k).graph = r.graph.create k := by
  rcases demand_cases s r k with ⟨-, he⟩ | ⟨-, -, he⟩
  · rw [he]
  · rw [he]

/-- Waiting for a key enters the reader among its waiters, which promises a signal if it was not
one of them. -/
theorem await_cases (r : Round D) (reader dep : D.Key) :
    ((∀ t, r.tasks.get? dep = some t → reader ∈ t.waiters) ∧ r.await reader dep = (false, r)) ∨
    ∃ t, r.tasks.get? dep = some t ∧ reader ∉ t.waiters ∧
      r.await reader dep = (true, { r with
        tasks := r.tasks.insert dep { t with waiters := t.waiters.insert reader } }) := by
  unfold await
  split
  · rename_i hnone
    exact .inl ⟨fun t ht => by simp [hnone] at ht, rfl⟩
  · rename_i t ht
    split
    · rename_i hw
      exact .inl ⟨fun t' ht' => Option.some.inj (ht.symm.trans ht') ▸ hw, rfl⟩
    · rename_i hw
      exact .inr ⟨t, ht, hw, rfl⟩

/-- Waiting changes nothing but waiters. -/
theorem await_frame (r : Round D) (reader dep : D.Key) :
    ∃ tasks, (r.await reader dep).2 = { r with tasks := tasks } := by
  rcases await_cases r reader dep with ⟨-, he⟩ | ⟨t, -, -, he⟩
  · exact ⟨r.tasks, by rw [he]⟩
  · exact ⟨_, by rw [he]⟩

/-! ## The frame of reading -/

/-- The second round is reached from the first by reading: nothing is stored, tasks gain waiters at
most, and new tasks are just begun. -/
structure Reads (r r' : Round D) : Prop where
  /-- No node changes. -/
  node : ∀ x, r'.graph.node x = r.graph.node x
  /-- Tasks gain waiters at most. -/
  kept : ∀ x t, r.tasks.get? x = some t →
    ∃ waiters, r'.tasks.get? x = some { t with waiters := waiters }
  /-- A new task is the start of an incomplete key, waiters apart. -/
  begun : ∀ x t', r.tasks.get? x = none → r'.tasks.get? x = some t' →
    r.graph.isComplete x = false ∧
      ∃ waiters, t' = { Task.start (r.graph.node x).status with waiters := waiters }
  /-- The round goes on as it did. -/
  stopping : r'.stopping = r.stopping
  /-- It is not given up. -/
  aborted : r'.aborted = r.aborted
  /-- No cycle is broken. -/
  cycles : r'.cycles = r.cycles
  /-- The wish to stop is not withdrawn. -/
  interrupted : r.interrupted = true → r'.interrupted = true
  /-- No key completes. -/
  completed : ∀ k how, Event.completed k how ∈ r'.log ↔ Event.completed k how ∈ r.log

namespace Reads

theorem refl (r : Round D) : Reads r r where
  node _ := rfl
  kept _ t h := ⟨t.waiters, h⟩
  begun _ _ h h' := by
    rw [h] at h'
    cases h'
  stopping := rfl
  aborted := rfl
  cycles := rfl
  interrupted := id
  completed _ _ := Iff.rfl

theorem isComplete {r r' : Round D} (h : Reads r r') (k : D.Key) :
    r'.graph.isComplete k = r.graph.isComplete k := by
  rw [Graph.isComplete, Graph.isComplete, h.node]

/-- A round that is not to stop after reads was not to stop before them. -/
theorem going {r r' : Round D} (h : Reads r r') (hgo : r'.interrupted = false) :
    r.interrupted = false :=
  Bool.eq_false_iff.mpr fun hi => Bool.eq_false_iff.mp hgo (h.interrupted hi)

theorem trans {r r' r'' : Round D} (h : Reads r r') (h' : Reads r' r'') : Reads r r'' where
  node x := (h'.node x).trans (h.node x)
  kept x t ht := by
    obtain ⟨w, hw⟩ := h.kept x t ht
    obtain ⟨w', hw'⟩ := h'.kept x _ hw
    exact ⟨w', hw'⟩
  begun x t'' hx hx'' := by
    cases ht : r'.tasks.get? x with
    | none =>
        obtain ⟨hc, w, rfl⟩ := h'.begun x t'' ht hx''
        rw [h.isComplete] at hc
        rw [h.node]
        exact ⟨hc, w, rfl⟩
    | some t' =>
        obtain ⟨hc, w, rfl⟩ := h.begun x t' hx ht
        obtain ⟨w', hw'⟩ := h'.kept x _ ht
        rw [hx''] at hw'
        exact ⟨hc, w', Option.some.inj hw'⟩
  stopping := h'.stopping.trans h.stopping
  aborted := h'.aborted.trans h.aborted
  cycles := h'.cycles.trans h.cycles
  interrupted hi := h'.interrupted (h.interrupted hi)
  completed k how := (h'.completed k how).trans (h.completed k how)

theorem contains {r r' : Round D} (h : Reads r r') {k : D.Key}
    (hk : r.tasks.contains k = true) : r'.tasks.contains k = true := by
  obtain ⟨t, ht⟩ := Option.isSome_iff_exists.mp hk
  obtain ⟨w, hw⟩ := h.kept k t ht
  exact Option.isSome_iff_exists.mpr ⟨_, hw⟩

end Reads

theorem reads_demand (s : Setting D) (r : Round D) (k : D.Key) : Reads r (r.demand s k) := by
  rcases demand_cases s r k with ⟨-, he⟩ | ⟨hc, hnone, he⟩
  · rw [he]
    exact { Reads.refl r with node := fun x => Graph.node_create _ _ _ }
  · rw [he]
    exact {
      node := fun x => Graph.node_create _ _ _
      kept := fun x t hx => by
        have hne : x ≠ k := by
          rintro rfl
          rw [hnone] at hx
          cases hx
        exact ⟨t.waiters, by rw [Table.get?_insert, if_neg hne, hx]⟩
      begun := fun x t' hx hx' => by
        rcases Table.get?_insert_eq_some_iff.mp hx' with ⟨rfl, rfl⟩ | ⟨-, hx'⟩
        · exact ⟨hc, ∅, rfl⟩
        · rw [hx] at hx'
          cases hx'
      stopping := rfl
      aborted := rfl
      cycles := rfl
      interrupted := fun hi => by simp [hi]
      completed := fun k' how => by simp }

theorem reads_await (r : Round D) (reader dep : D.Key) : Reads r (r.await reader dep).2 := by
  rcases await_cases r reader dep with ⟨-, he⟩ | ⟨t, ht, -, he⟩
  · rw [he]
    exact .refl r
  · rw [he]
    exact { Reads.refl r with
      kept := fun x t' hx => by
        by_cases hxd : x = dep
        · subst hxd
          obtain rfl := Option.some.inj (ht.symm.trans hx)
          exact ⟨_, Table.get?_insert_self _ _ _⟩
        · exact ⟨t'.waiters, by rw [Table.get?_insert, if_neg hxd, hx]⟩
      begun := fun x t' hx hx' => by
        rcases Table.get?_insert_eq_some_iff.mp hx' with ⟨rfl, -⟩ | ⟨-, hx'⟩
        · rw [ht] at hx
          cases hx
        · rw [hx] at hx'
          cases hx' }

/-- A read of a round that is to stop answers nothing and does nothing. -/
theorem readOne_of_interrupted {s : Setting D} {r : Round D} (reader dep : D.Key)
    (h : r.interrupted = true) : r.readOne s reader dep = (.interrupted, r) := by
  simp [readOne, h]

/-- A read of a key with a settled outcome shows it. -/
theorem readOne_of_settled {s : Setting D} {r : Round D} (reader dep : D.Key)
    (h : r.interrupted = false) {o : Outcome D} (ho : (r.graph.node dep).settled? = some o) :
    r.readOne s reader dep = (.ofOutcome o (r.graph.node dep).changedAt, r.demand s dep) := by
  unfold readOne
  rw [if_neg (by simp [h])]
  simp only [(reads_demand s r dep).node, ho]
  cases o with
  | value v => rfl
  | failure e => rfl

theorem readOne_of_unsettled {s : Setting D} {r : Round D} (reader dep : D.Key)
    (h : r.interrupted = false) (ho : (r.graph.node dep).settled? = none) :
    r.readOne s reader dep =
      (.pending ((r.demand s dep).await reader dep).1, ((r.demand s dep).await reader dep).2) := by
  unfold readOne
  rw [if_neg (by simp [h])]
  simp only [(reads_demand s r dep).node, ho]

/-- A read does nothing if the round is to stop.  If not, it demands the key, and the reader may be
entered among its waiters. -/
theorem readOne_cases (s : Setting D) (r : Round D) (reader dep : D.Key) :
    (r.readOne s reader dep).2 = r ∨ (r.readOne s reader dep).2 = r.demand s dep ∨
      (r.readOne s reader dep).2 = ((r.demand s dep).await reader dep).2 := by
  cases hi : r.interrupted with
  | true => exact .inl (by rw [readOne_of_interrupted reader dep hi])
  | false =>
      cases ho : (r.graph.node dep).settled? with
      | some o => exact .inr (.inl (by rw [readOne_of_settled reader dep hi ho]))
      | none => exact .inr (.inr (by rw [readOne_of_unsettled reader dep hi ho]))

theorem reads_readOne (s : Setting D) (r : Round D) (reader dep : D.Key) :
    Reads r (r.readOne s reader dep).2 := by
  rcases readOne_cases s r reader dep with he | he | he
  · rw [he]
    exact .refl r
  · rw [he]
    exact reads_demand s r dep
  · rw [he]
    exact (reads_demand s r dep).trans (reads_await _ reader dep)

/-! ## Reading in quiet -/

/-- The observer never stops the round. -/
def Quiet (s : Setting D) : Prop := ∀ log, s.observer log = false

namespace Quiet

variable {s : Setting D}

theorem record (h : Quiet s) (r : Round D) (e : Event D) :
    (r.record s e).interrupted = r.interrupted := by
  rw [Round.record, h, Bool.or_false]

theorem demand (h : Quiet s) (r : Round D) (k : D.Key) :
    (r.demand s k).interrupted = r.interrupted := by
  rcases demand_cases s r k with ⟨-, he⟩ | ⟨-, -, he⟩
  · rw [he]
  · simp only [he, h _, Bool.or_false]

theorem readOne (h : Quiet s) (r : Round D) (reader dep : D.Key) :
    (r.readOne s reader dep).2.interrupted = r.interrupted := by
  rcases readOne_cases s r reader dep with he | he | he
  · rw [he]
  · rw [he, h.demand]
  · obtain ⟨tasks, hawait⟩ := await_frame (r.demand s dep) reader dep
    rw [he, hawait]
    exact h.demand r dep

theorem readEach (h : Quiet s) (k : D.Key) (accepts : D.Fault → Bool) (batch : List D.Key)
    (inv : Invocation D) (r : Round D) :
    (r.readEach s k accepts batch inv).2.2.interrupted = r.interrupted := by
  induction batch generalizing inv r with
  | nil => rfl
  | cons dep rest ih =>
      simp only [Round.readEach]
      rw [ih, h.readOne]

end Quiet

/-! ## Induction over reads -/

section Induction

variable {s : Setting D} {k : D.Key}

/-- A property of invocation and round that holds before a batch and is kept by every read holds
after the batch. -/
theorem readEach_induction {P : Invocation D → Round D → Prop} {accepts : D.Fault → Bool}
    {batch : List D.Key}
    (read : ∀ dep ∈ batch, ∀ inv r, P inv r →
      P (inv.note accepts dep (r.readOne s k dep).1).2 (r.readOne s k dep).2)
    {inv : Invocation D} {r : Round D} (h : P inv r) :
    P (r.readEach s k accepts batch inv).2.1 (r.readEach s k accepts batch inv).2.2 := by
  induction batch generalizing inv r with
  | nil => exact h
  | cons dep rest ih =>
      simp only [readEach]
      exact ih (fun dep' hdep => read dep' (List.mem_cons_of_mem dep hdep))
        (read dep List.mem_cons_self inv r h)

@[simp] theorem batches_note (inv : Invocation D) (accepts : D.Fault → Bool) (dep : D.Key)
    (reply : Reply D) : (inv.note accepts dep reply).2.batches = inv.batches := by
  cases reply with
  | failed e changedAt =>
      simp only [Invocation.note]
      split <;> rfl
  | _ => rfl

theorem batches_readEach (accepts : D.Fault → Bool) (batch : List D.Key) (inv : Invocation D)
    (r : Round D) : (r.readEach s k accepts batch inv).2.1.batches = inv.batches :=
  readEach_induction (P := fun inv' _ => inv'.batches = inv.batches)
    (fun dep _ inv' _ h => (batches_note inv' accepts dep _).trans h) rfl

/-- A property of invocation and round that is kept by every read of a requested key, and by what a
function does besides, is kept by the whole invocation. -/
theorem run_induction {P : Invocation D → Round D → Prop}
    (batch : ∀ keys inv r, P inv r → P { inv with batches := inv.batches ++ [keys] } r)
    (read : ∀ accepts dep inv r, (∃ keys ∈ inv.batches, dep ∈ keys) → P inv r →
      P (inv.note accepts dep (r.readOne s k dep).1).2 (r.readOne s k dep).2)
    (keep : ∀ scratch inv r, P inv r → P { inv with scratch := scratch } r)
    (stop : ∀ inv r, P inv r → P inv { r with interrupted := true })
    (recipe : Recipe D) {inv : Invocation D} {r : Round D} (h : P inv r) :
    P (recipe.run s k inv r).2.1 (recipe.run s k inv r).2.2 := by
  induction recipe generalizing inv r with
  | value v => exact h
  | needsDeps => exact h
  | fault e => exact h
  | crash payload => exact h
  | read keys accepts next ih =>
      simp only [Recipe.run]
      let whole := inv.batches ++ [keys]
      refine ih _ (readEach_induction (P := fun inv r => P inv r ∧ inv.batches = whole)
        (fun dep hdep inv r h => ?_) ⟨batch keys inv r h, rfl⟩).1
      refine ⟨read accepts dep inv r ⟨keys, ?_, hdep⟩ h.1, (batches_note inv _ _ _).trans h.2⟩
      rw [h.2]
      exact List.mem_append_right _ List.mem_cons_self
  | valuesMissing next ih => exact ih _ h
  | isInterrupted next ih => exact ih _ h
  | version next ih => exact ih _ h
  | load slot next ih => exact ih _ (keep _ inv r h)
  | store slot content next ih => exact ih (keep _ inv r h)
  | interrupt next ih => exact ih (stop inv r h)

/-- A property of reading and round that is kept by every read is kept by the check of a group. -/
theorem readGroup_induction {P : GroupReading D.Key → Round D → Prop} {since : Version}
    (read : ∀ dep seen r, P seen r →
      P (seen.note since dep (r.readOne s k dep).1) (r.readOne s k dep).2)
    (group : List D.Key) {seen : GroupReading D.Key} {r : Round D} (h : P seen r) :
    P (readGroup s k since group seen r).1 (readGroup s k since group seen r).2 := by
  induction group generalizing seen r with
  | nil => exact h
  | cons dep rest ih => exact ih (read dep seen r h)

theorem reads_readEach (accepts : D.Fault → Bool) (batch : List D.Key) (inv : Invocation D)
    (r : Round D) : Reads r (r.readEach s k accepts batch inv).2.2 :=
  readEach_induction (P := fun _ r' => Reads r r')
    (fun dep _ _ _ h => h.trans (reads_readOne s _ k dep)) (.refl r)

theorem reads_run (recipe : Recipe D) (inv : Invocation D) (r : Round D) :
    Reads r (recipe.run s k inv r).2.2 :=
  run_induction (P := fun _ r' => Reads r r') (fun _ _ _ h => h)
    (fun _ dep _ _ _ h => h.trans (reads_readOne s _ k dep)) (fun _ _ _ h => h)
    (fun _ r' h => h.trans { Reads.refl r' with interrupted := fun _ => rfl }) recipe (.refl r)

theorem reads_readGroup (since : Version) (group : List D.Key) (seen : GroupReading D.Key)
    (r : Round D) : Reads r (readGroup s k since group seen r).2 :=
  readGroup_induction (P := fun _ r' => Reads r r')
    (fun dep _ _ h => h.trans (reads_readOne s _ k dep)) group (.refl r)

/-- A reading is cut only in a round that is to stop. -/
theorem cut_readGroup (since : Version) (group : List D.Key) (r : Round D) :
    (readGroup s k since group .start r).1.cut = true →
      (readGroup s k since group .start r).2.interrupted = true := by
  refine readGroup_induction (P := fun seen r => seen.cut = true → r.interrupted = true)
    (fun dep seen r h hcut => ?_) group (fun h => Bool.noConfusion h)
  cases hi : r.interrupted with
  | true => exact (reads_readOne s r k dep).interrupted hi
  | false =>
      refine (reads_readOne s r k dep).interrupted (h ?_)
      cases ho : (r.graph.node dep).settled? with
      | none =>
          rw [readOne_of_unsettled k dep hi ho] at hcut
          exact hcut
      | some o =>
          rw [readOne_of_settled k dep hi ho] at hcut
          cases o with
          | value v => exact hcut
          | failure e => exact hcut

theorem reads_countCall (r : Round D) : Reads r (r.countCall s k).2 :=
  { Reads.refl r with
    interrupted := fun h => interrupted_record h
    completed := fun k' how => by simp [countCall] }

theorem reads_invoke (f : Function D) (scratch : Option (Scratch D)) (r : Round D) :
    Reads r (r.invoke s k f scratch).2.2 :=
  (reads_countCall r).trans (reads_run _ _ _)

end Induction

/-! ## What reading queues -/

/-- Tasks were added for some of the `asked` keys at most, and if none was added, no key was
queued. -/
structure Adds (asked : D.Key → Prop) (r r' : Round D) : Prop where
  /-- No task is dropped. -/
  kept : ∀ x, r.tasks.contains x = true → r'.tasks.contains x = true
  /-- New tasks are of keys that were asked for. -/
  tasks : ∀ x, r'.tasks.contains x = true → r.tasks.contains x = true ∨ asked x
  /-- Only keys with new tasks are queued. -/
  queue : r'.queue = r.queue ∨ ∃ x, r.tasks.contains x = false ∧ r'.tasks.contains x = true

namespace Adds

variable {s : Setting D} {r r' r'' : Round D} {asked asked' : D.Key → Prop}

theorem refl (asked : D.Key → Prop) (r : Round D) : Adds asked r r :=
  ⟨fun _ => id, fun _ => .inl, .inl rfl⟩

theorem imp (h : Adds asked r r') (hasked : ∀ x, asked x → asked' x) : Adds asked' r r' :=
  ⟨h.kept, fun x hx => (h.tasks x hx).imp id (hasked x), h.queue⟩

theorem trans (h : Adds asked r r') (h' : Adds asked r' r'') : Adds asked r r'' where
  kept x hx := h'.kept x (h.kept x hx)
  tasks x hx := by
    rcases h'.tasks x hx with hx | hx
    · exact h.tasks x hx
    · exact .inr hx
  queue := by
    rcases h.queue with hq | ⟨x, hx, hx'⟩
    · rcases h'.queue with hq' | ⟨x, hx, hx'⟩
      · exact .inl (hq'.trans hq)
      · cases hold : r.tasks.contains x with
        | true =>
            rw [h.kept x hold] at hx
            cases hx
        | false => exact .inr ⟨x, hold, hx'⟩
    · exact .inr ⟨x, hx, h'.kept x hx'⟩

/-- The same tasks and the same queue. -/
theorem of_eq (htasks : ∀ x, r'.tasks.contains x = r.tasks.contains x)
    (hqueue : r'.queue = r.queue) : Adds asked r r' :=
  ⟨fun x hx => (htasks x).trans hx, fun x hx => .inl ((htasks x).symm.trans hx), .inl hqueue⟩

theorem demand (s : Setting D) (r : Round D) (k : D.Key) : Adds (· = k) r (r.demand s k) := by
  rcases demand_cases s r k with ⟨-, he⟩ | ⟨-, hnone, he⟩
  · rw [he]
    exact of_eq (fun _ => rfl) rfl
  · rw [he]
    refine ⟨fun x hx => Table.contains_insert.mpr (.inr hx),
      fun x hx => (Table.contains_insert.mp hx).symm,
      .inr ⟨k, by simp [Table.contains, hnone], Table.contains_insert.mpr (.inl rfl)⟩⟩

theorem await (asked : D.Key → Prop) (r : Round D) (reader dep : D.Key) :
    Adds asked r (r.await reader dep).2 := by
  rcases await_cases r reader dep with ⟨-, he⟩ | ⟨t, ht, -, he⟩
  · rw [he]
    exact refl asked r
  · rw [he]
    have hdep : r.tasks.contains dep = true := Option.isSome_iff_exists.mpr ⟨t, ht⟩
    exact of_eq (fun x => Table.contains_insert_of_contains hdep x _) rfl

theorem readOne (s : Setting D) (r : Round D) (reader dep : D.Key) :
    Adds (· = dep) r (r.readOne s reader dep).2 := by
  rcases readOne_cases s r reader dep with he | he | he
  · rw [he]
    exact refl _ r
  · rw [he]
    exact demand s r dep
  · rw [he]
    exact (demand s r dep).trans (await _ _ reader dep)

/-- An invocation adds tasks for keys that it requests. -/
theorem invoke (s : Setting D) (k : D.Key) (f : Function D) (scratch : Option (Scratch D))
    (r : Round D) :
    Adds (fun x => ∃ keys ∈ (r.invoke s k f scratch).2.1.batches, x ∈ keys) r
      (r.invoke s k f scratch).2.2 := by
  have hcall : Adds (fun x => ∃ keys ∈ (Invocation.start scratch : Invocation D).batches, x ∈ keys)
      r (r.countCall s k).2 := of_eq (fun _ => rfl) rfl
  refine run_induction (P := fun inv r' => Adds (fun x => ∃ keys ∈ inv.batches, x ∈ keys) r r')
    (fun batch inv r' h => ?_) (fun accepts dep inv r' hdep h => ?_) (fun _ _ _ h => h)
    (fun _ _ h => ⟨h.kept, h.tasks, h.queue⟩) (f k (r.countCall s k).1) hcall
  · refine h.imp fun x hx => ?_
    obtain ⟨keys, hkeys, hx⟩ := hx
    exact ⟨keys, List.mem_append_left _ hkeys, hx⟩
  · rw [batches_note]
    refine h.trans ((readOne s r' k dep).imp fun x hx => ?_)
    rw [hx]
    exact hdep

end Adds

end Round

end MemoGraph
