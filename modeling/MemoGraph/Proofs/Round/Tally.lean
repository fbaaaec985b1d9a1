import MemoGraph.Proofs.Round.Moves

/-!
# Every signal is accounted for

A key that waits does so for signals, and nothing else ever puts it back to work.  The invariant of
this module, `Tally`, ties the number of signals that a task expects to the incomplete keys that
list it among their waiters, and these to the keys it met without an outcome.  While a key acts it
has met keys that its task does not yet count, so the invariant carries that remainder along.  It
is kept here by reading and by going on or waiting after it.
-/

set_option autoImplicit false

namespace MemoGraph

variable {D : Domain}

/-- How many signals a reply promises. -/
def Reply.signals : Reply D → Nat
  | .pending enlisted => enlisted.toNat
  | _ => 0

/-- The key that a reply left without an outcome. -/
def Reply.unsettled (dep : D.Key) : Reply D → List D.Key
  | .pending _ => [dep]
  | _ => []

theorem Reply.eq_of_mem_unsettled {dep d : D.Key} {reply : Reply D}
    (h : d ∈ reply.unsettled dep) : d = dep := by
  cases reply with
  | pending enlisted => exact List.mem_singleton.mp h
  | _ => exact absurd h List.not_mem_nil

theorem GroupReading.note_bookkeeping (seen : GroupReading D.Key) (since : Version)
    (dep : D.Key) (reply : Reply D) :
    (seen.note since dep reply).enlisted = seen.enlisted + reply.signals ∧
      (seen.note since dep reply).waiting = seen.waiting ++ reply.unsettled dep := by
  cases reply <;> simp [note, Reply.signals, Reply.unsettled]

theorem Invocation.note_bookkeeping (inv : Invocation D) (accepts : D.Fault → Bool)
    (dep : D.Key) (reply : Reply D) :
    (inv.note accepts dep reply).2.enlisted = inv.enlisted + reply.signals ∧
      (inv.note accepts dep reply).2.awaited = inv.awaited ++ reply.unsettled dep := by
  cases reply with
  | failed e changedAt =>
      simp only [note]
      split <;> simp [Reply.signals, Reply.unsettled]
  | _ => simp [note, Reply.signals, Reply.unsettled]

namespace Round

/-- `d` will signal `x` on completion. -/
def Enlisted (r : Round D) (x d : D.Key) : Prop :=
  ∃ t, r.tasks.get? d = some t ∧ x ∈ t.waiters

theorem mem_waiters_iff {r : Round D} {x d : D.Key} : x ∈ r.waiters d ↔ r.Enlisted x d := by
  unfold waiters Enlisted
  cases r.tasks.get? d with
  | none => simp
  | some t => simp [OrderedSet.mem_def]

theorem contains_of_get? {r : Round D} {k : D.Key} {t : Task D}
    (h : r.tasks.get? k = some t) : r.tasks.contains k = true :=
  Option.isSome_iff_exists.mpr ⟨t, h⟩

/-- A demanded key is complete or has a task. -/
theorem known_demand (s : Setting D) (r : Round D) (k : D.Key) :
    (r.demand s k).graph.isComplete k = true ∨ (r.demand s k).tasks.contains k = true := by
  rcases demand_cases s r k with ⟨hknown, -⟩ | ⟨-, -, he⟩
  · rw [(reads_demand s r k).isComplete]
    exact hknown.imp id (reads_demand s r k).contains
  · rw [he]
    exact .inr (Table.contains_insert.mpr (.inl rfl))

/-- Replacing the task of `k` changes who is enlisted with `k` alone. -/
theorem enlisted_of_insert {r r' : Round D} {k : D.Key} {t : Task D}
    (h : r'.tasks = r.tasks.insert k t) {x d : D.Key} :
    r'.Enlisted x d ↔ (if d = k then x ∈ t.waiters else r.Enlisted x d) := by
  unfold Enlisted
  rw [h, Table.get?_insert]
  split
  · simp
  · rfl

/-- A key that goes on is at work and next in the queue. -/
theorem resumeOrPark_of_active {r : Round D} {k : D.Key} {t : Task D} (h : t.active = true) :
    r.resumeOrPark k t = { r with
      tasks := r.tasks.insert k { t with active := decide (t.expected = 0) }
      queue := if t.expected = 0 then k :: r.queue else r.queue } := by
  unfold resumeOrPark
  split
  · rename_i hzero
    have hsame : { t with active := decide (t.expected = 0) } = t := by
      rw [decide_eq_true hzero, ← h]
    rw [hsame]
    rfl
  · rename_i hzero
    simp [park, putTask, hzero]

/-- The signals that the acting key is promised but does not count yet. -/
def owed (busy : Option D.Key) (n : Nat) (x : D.Key) : Int := if busy = some x then n else 0

/-- Expected signals, waiters and queue agree.  The key `busy`, if any, is acting: it has met the
keys `met` without an outcome and was entered among the waiters of `n` keys, and its task knows
nothing of this yet. -/
structure Tally (r : Round D) (busy : Option D.Key) (n : Nat) (met : List D.Key) : Prop where
  /-- Only incomplete keys have tasks. -/
  unfinished : ∀ x t, r.tasks.get? x = some t → r.graph.isComplete x = false
  /-- A task expects one signal from every key where it is enlisted. -/
  counted : ∀ x t, r.tasks.get? x = some t → ∃ sources : List D.Key, sources.Nodup ∧
    (∀ d, d ∈ sources ↔ r.Enlisted x d) ∧ t.expected + owed busy n x = sources.length
  /-- A task is enlisted with the incomplete keys it met. -/
  awaits : ∀ x t, r.tasks.get? x = some t → ∀ d, r.Enlisted x d ↔
    (d ∈ t.awaited ∨ (busy = some x ∧ d ∈ met)) ∧ r.graph.isComplete d = false
  /-- A task is at work if it expects no signal. -/
  ready : ∀ x t, r.tasks.get? x = some t → (t.active = true ↔ t.expected = 0)
  /-- A task at work is queued, unless it is acting or nothing is queued any more. -/
  queued : ∀ x t, r.tasks.get? x = some t → t.active = true → busy ≠ some x →
    x ∈ r.queue ∨ r.stopping = true
  /-- Queued keys are complete or at work. -/
  working : ∀ x ∈ r.queue, r.graph.isComplete x = true ∨
    ∃ t, r.tasks.get? x = some t ∧ t.active = true
  /-- No key is queued twice. -/
  nodup : r.queue.Nodup
  /-- Waiters are complete or have tasks. -/
  enrolled : ∀ x d, r.Enlisted x d → r.graph.isComplete x = true ∨ r.tasks.contains x = true
  /-- The acting key is at work without being queued. -/
  acting : ∀ x, busy = some x →
    x ∉ r.queue ∧ ∃ t, r.tasks.get? x = some t ∧ t.active = true

namespace Tally

variable {r : Round D} {busy : Option D.Key} {n : Nat} {met : List D.Key}

/-! ## Reading -/

/-- A key under evaluation stays incomplete while it reads. -/
theorem unfinished_of_reads (h : Tally r busy n met) {rest : List D.Key} {r₀ : Round D}
    (hr : Reads { r with queue := rest } r₀) {k : D.Key} {t : Task D}
    (ht : r.tasks.get? k = some t) : r₀.graph.isComplete k = false :=
  (hr.isComplete k).trans (h.unfinished k t ht)

/-- Of the graph it only matters which keys are complete. -/
theorem of_graph (h : Tally r busy n met) {graph : Graph D}
    (hgraph : ∀ x, graph.isComplete x = r.graph.isComplete x) :
    Tally { r with graph := graph } busy n met where
  unfinished x t hx := (hgraph x).trans (h.unfinished x t hx)
  counted := h.counted
  awaits x t hx d := by
    simp only [hgraph]
    exact h.awaits x t hx d
  ready := h.ready
  queued := h.queued
  working x hx := by
    simp only [hgraph]
    exact h.working x hx
  nodup := h.nodup
  enrolled x d hd := by
    simp only [hgraph]
    exact h.enrolled x d hd
  acting := h.acting

theorem unknown (h : Tally r busy n met) {k : D.Key} (hc : r.graph.isComplete k = false)
    (ht : r.tasks.get? k = none) : (∀ d, ¬ r.Enlisted k d) ∧ k ∉ r.queue ∧ busy ≠ some k := by
  have hnot : ¬ r.tasks.contains k = true := by simp [Table.contains, ht]
  refine ⟨fun d hd => ?_, fun hq => ?_, fun hb => ?_⟩
  · rcases h.enrolled k d hd with hk | hk
    · rw [hc] at hk
      exact Bool.noConfusion hk
    · exact hnot hk
  · rcases h.working k hq with hk | ⟨t, hk, -⟩
    · rw [hc] at hk
      exact Bool.noConfusion hk
    · rw [ht] at hk
      cases hk
  · obtain ⟨-, t, hk, -⟩ := h.acting k hb
    rw [ht] at hk
    cases hk

/-- A key that expects no signal and was promised none is enlisted nowhere. -/
theorem not_enlisted (h : Tally r busy n met) {k : D.Key} {t : Task D}
    (ht : r.tasks.get? k = some t) (hzero : t.expected + owed busy n k = 0) (d : D.Key) :
    ¬ r.Enlisted k d := by
  obtain ⟨sources, -, hsources, hlength⟩ := h.counted k t ht
  have hnil : sources = [] := List.eq_nil_of_length_eq_zero (by omega)
  rw [← hsources, hnil]
  exact List.not_mem_nil

/-- A key that begins is at work.  It expects nothing and has met nothing. -/
theorem begins (h : Tally r busy n met) {k : D.Key} (hc : r.graph.isComplete k = false)
    (hnone : r.tasks.get? k = none) {status : Status} {r' : Round D} (hgraph : r'.graph = r.graph)
    (htasks : r'.tasks = r.tasks.insert k (Task.start status))
    (hqueue : r'.queue = if r.stopping then r.queue else r.queue ++ [k])
    (hstop : r'.stopping = r.stopping) : Tally r' busy n met := by
  obtain ⟨hsource, hfree, hbusy⟩ := h.unknown hc hnone
  have hget {x : D.Key} {t : Task D} : r'.tasks.get? x = some t ↔
      x = k ∧ Task.start status = t ∨ x ≠ k ∧ r.tasks.get? x = some t := by
    rw [htasks, Table.get?_insert_eq_some_iff]
  have henlisted (x d : D.Key) : r'.Enlisted x d ↔ r.Enlisted x d := by
    rw [enlisted_of_insert htasks]
    split
    · rename_i hd
      simp [hd, Task.start, Enlisted, hnone]
    · rfl
  have hmem (x : D.Key) : x ∈ r'.queue ↔ x ∈ r.queue ∨ r.stopping = false ∧ x = k := by
    rw [hqueue]
    cases r.stopping with
    | true => simp
    | false => simp
  constructor
  case unfinished =>
    intro x t hx
    rw [hgraph]
    rcases hget.mp hx with ⟨rfl, -⟩ | ⟨-, hx⟩
    · exact hc
    · exact h.unfinished x t hx
  case counted =>
    intro x t hx
    simp only [henlisted]
    rcases hget.mp hx with ⟨rfl, rfl⟩ | ⟨-, hx⟩
    · exact ⟨[], List.nodup_nil, by simpa using hsource, by simp [Task.start, owed, hbusy]⟩
    · exact h.counted x t hx
  case awaits =>
    intro x t hx d
    rw [henlisted, hgraph]
    rcases hget.mp hx with ⟨rfl, rfl⟩ | ⟨-, hx⟩
    · simp [Task.start, hbusy, hsource d]
    · exact h.awaits x t hx d
  case ready =>
    intro x t hx
    rcases hget.mp hx with ⟨rfl, rfl⟩ | ⟨-, hx⟩
    · simp [Task.start]
    · exact h.ready x t hx
  case queued =>
    intro x t hx ha hb
    rw [hmem, hstop]
    rcases hget.mp hx with ⟨rfl, rfl⟩ | ⟨-, hx⟩
    · cases r.stopping with
      | true => exact .inr rfl
      | false => exact .inl (.inr ⟨rfl, rfl⟩)
    · exact (h.queued x t hx ha hb).imp_left .inl
  case working =>
    intro x hx
    rw [hgraph]
    by_cases hxk : x = k
    · exact .inr ⟨_, hget.mpr (.inl ⟨hxk, rfl⟩), rfl⟩
    · have hold : x ∈ r.queue := ((hmem x).mp hx).resolve_right fun hnew => hxk hnew.2
      refine (h.working x hold).imp_right ?_
      rintro ⟨t, ht, ha⟩
      exact ⟨t, hget.mpr (.inr ⟨hxk, ht⟩), ha⟩
  case nodup =>
    rw [hqueue]
    split
    · exact h.nodup
    · refine List.nodup_append.mpr ⟨h.nodup, by simp, fun a ha b hb e => hfree ?_⟩
      rw [List.mem_singleton] at hb
      exact hb ▸ e ▸ ha
  case enrolled =>
    intro x d hd
    rw [hgraph, htasks, Table.contains_insert]
    exact (h.enrolled x d ((henlisted x d).mp hd)).imp_right .inr
  case acting =>
    intro x hb
    obtain ⟨hxq, t, ht, ha⟩ := h.acting x hb
    have hxk : x ≠ k := fun e => hbusy (e ▸ hb)
    exact ⟨fun hx => ((hmem x).mp hx).elim hxq fun hnew => hxk hnew.2,
      t, hget.mpr (.inr ⟨hxk, ht⟩), ha⟩

theorem demand (h : Tally r busy n met) (s : Setting D) (k : D.Key) :
    Tally (r.demand s k) busy n met := by
  have hcreate (x : D.Key) : (r.graph.create k).isComplete x = r.graph.isComplete x := by
    simp [Graph.isComplete]
  rcases demand_cases s r k with ⟨-, he⟩ | ⟨hc, hnone, he⟩
  · rw [he]
    exact h.of_graph hcreate
  · have hbegun : Tally { r with
        tasks := r.tasks.insert k (Task.start (r.graph.node k).status)
        queue := if r.stopping then r.queue else r.queue ++ [k]
        log := .enqueued k :: r.log
        interrupted := r.interrupted || s.observer (.enqueued k :: r.log) } busy n met :=
      h.begins hc hnone rfl rfl rfl rfl
    rw [he]
    exact hbegun.of_graph hcreate

/-- Meeting a key once more, or a complete one, promises nothing. -/
theorem meets {k : D.Key} (h : Tally r (some k) n met) {d : D.Key}
    (hd : r.graph.isComplete d = false → r.Enlisted k d) : Tally r (some k) n (met ++ [d]) := by
  refine { h with awaits := fun x t hx d' => (h.awaits x t hx d').trans ⟨?_, ?_⟩ }
  · rintro ⟨hmet, hinc⟩
    exact ⟨hmet.imp_right fun hnew => ⟨hnew.1, List.mem_append_left _ hnew.2⟩, hinc⟩
  · rintro ⟨hawaited | ⟨hb, hmet⟩, hinc⟩
    · exact ⟨.inl hawaited, hinc⟩
    · rcases List.mem_append.mp hmet with hmet | hmet
      · exact ⟨.inr ⟨hb, hmet⟩, hinc⟩
      · obtain rfl := List.mem_singleton.mp hmet
        obtain rfl := Option.some.inj hb
        exact (h.awaits k t hx d').mp (hd hinc)

/-- Meeting an incomplete key for the first time promises one signal. -/
theorem enlists {k : D.Key} (h : Tally r (some k) n met) {d : D.Key} {t : Task D}
    (ht : r.tasks.get? d = some t) (hk : k ∉ t.waiters) :
    Tally { r with tasks := r.tasks.insert d { t with waiters := t.waiters.insert k } } (some k)
      (n + 1) (met ++ [d]) := by
  have hinc : r.graph.isComplete d = false := h.unfinished d t ht
  have hcontains (x : D.Key) : (r.tasks.insert d { t with
      waiters := t.waiters.insert k }).contains x = r.tasks.contains x :=
    Table.contains_insert_of_contains (contains_of_get? ht) x _
  have henlisted (x d' : D.Key) : ({ r with tasks := r.tasks.insert d { t with
      waiters := t.waiters.insert k } } : Round D).Enlisted x d' ↔
        r.Enlisted x d' ∨ x = k ∧ d' = d := by
    rw [enlisted_of_insert (r := r) rfl]
    split
    · rename_i hd
      simp [hd, Enlisted, ht]
    · rename_i hd
      simp [hd]
  -- Apart from its waiters, a task is the one it was.
  have hback {x : D.Key} {t' : Task D}
      (hx : (r.tasks.insert d { t with waiters := t.waiters.insert k }).get? x = some t') :
      ∃ t₀, r.tasks.get? x = some t₀ ∧ t'.awaited = t₀.awaited ∧ t'.expected = t₀.expected ∧
        t'.active = t₀.active := by
    rcases Table.get?_insert_eq_some_iff.mp hx with ⟨rfl, rfl⟩ | ⟨-, hx⟩
    · exact ⟨t, ht, rfl, rfl, rfl⟩
    · exact ⟨t', hx, rfl, rfl, rfl⟩
  have hactive (x : D.Key) (hx : ∃ t₀, r.tasks.get? x = some t₀ ∧ t₀.active = true) :
      ∃ t', (r.tasks.insert d { t with waiters := t.waiters.insert k }).get? x = some t' ∧
        t'.active = true := by
    obtain ⟨t₀, hx₀, ha⟩ := hx
    by_cases hxd : x = d
    · subst hxd
      obtain rfl := Option.some.inj (ht.symm.trans hx₀)
      exact ⟨_, Table.get?_insert_self _ _ _, ha⟩
    · exact ⟨t₀, Table.get?_insert_eq_some_iff.mpr (.inr ⟨hxd, hx₀⟩), ha⟩
  constructor
  case unfinished =>
    intro x t' hx
    obtain ⟨t₀, hx₀, -⟩ := hback hx
    exact h.unfinished x t₀ hx₀
  case counted =>
    intro x t' hx
    obtain ⟨t₀, hx₀, -, hexpected, -⟩ := hback hx
    obtain ⟨sources, hnodup, hsources, hlength⟩ := h.counted x t₀ hx₀
    rw [hexpected]
    by_cases hxk : x = k
    · subst hxk
      have hnew : d ∉ sources := by
        rw [hsources]
        rintro ⟨t₁, ht₁, hw⟩
        exact hk (Option.some.inj (ht₁.symm.trans ht) ▸ hw)
      refine ⟨d :: sources, List.nodup_cons.mpr ⟨hnew, hnodup⟩, fun d' => ?_, ?_⟩
      · rw [henlisted, List.mem_cons, hsources]
        simp [or_comm]
      · simp only [owed, if_true, List.length_cons] at hlength ⊢
        omega
    · refine ⟨sources, hnodup, fun d' => ?_, ?_⟩
      · rw [henlisted, hsources]
        simp [hxk]
      · simpa [owed, Ne.symm hxk] using hlength
  case awaits =>
    intro x t' hx d'
    obtain ⟨t₀, hx₀, hawaited, -⟩ := hback hx
    rw [henlisted, hawaited, h.awaits x t₀ hx₀ d']
    by_cases hdd : d' = d
    · subst hdd
      by_cases hxk : x = k
      · simp [hxk, hinc]
      · simp [hxk, Ne.symm hxk]
    · simp [hdd]
  case ready =>
    intro x t' hx
    obtain ⟨t₀, hx₀, -, hexpected, hactive⟩ := hback hx
    rw [hexpected, hactive]
    exact h.ready x t₀ hx₀
  case queued =>
    intro x t' hx ha hb
    obtain ⟨t₀, hx₀, -, -, hactive⟩ := hback hx
    exact h.queued x t₀ hx₀ (hactive ▸ ha) hb
  case working => exact fun x hx => (h.working x hx).imp_right (hactive x)
  case nodup => exact h.nodup
  case enrolled =>
    intro x d' hd'
    rw [hcontains]
    rcases (henlisted x d').mp hd' with hd' | ⟨rfl, -⟩
    · exact h.enrolled x d' hd'
    · obtain ⟨-, t₀, hx₀, -⟩ := h.acting x rfl
      exact .inr (contains_of_get? hx₀)
  case acting => exact fun x hb => (h.acting x hb).imp_right (hactive x)

/-- The acting key meets a key without an outcome.  It counts a signal if it was not enlisted there
before. -/
theorem await {k : D.Key} (h : Tally r (some k) n met) {d : D.Key}
    (hd : r.graph.isComplete d = true ∨ r.tasks.contains d = true) :
    Tally (r.await k d).2 (some k) (n + (r.await k d).1.toNat) (met ++ [d]) := by
  rcases await_cases r k d with ⟨hwaits, he⟩ | ⟨t, ht, hk, he⟩
  · rw [he]
    refine h.meets fun hinc => ?_
    obtain ⟨t, ht⟩ := Option.isSome_iff_exists.mp (hd.resolve_left (by simp [hinc]))
    exact ⟨t, ht, hwaits t ht⟩
  · rw [he]
    exact h.enlists ht hk

/-- What a read adds to what the acting key is promised and has met. -/
theorem readOne {k : D.Key} (h : Tally r (some k) n met) (s : Setting D) (d : D.Key) :
    Tally (r.readOne s k d).2 (some k) (n + (r.readOne s k d).1.signals)
      (met ++ (r.readOne s k d).1.unsettled d) := by
  cases hi : r.interrupted with
  | true =>
      rw [readOne_of_interrupted k d hi]
      simpa [Reply.signals, Reply.unsettled] using h
  | false =>
      have hdemand := h.demand s d
      cases ho : (r.graph.node d).settled? with
      | some o =>
          rw [readOne_of_settled k d hi ho]
          cases o with
          | value v => simpa [Reply.signals, Reply.unsettled] using hdemand
          | failure e => simpa [Reply.signals, Reply.unsettled] using hdemand
      | none =>
          rw [readOne_of_unsettled k d hi ho]
          exact hdemand.await (known_demand s r d)

theorem invoke {s : Setting D} {k : D.Key} (h : Tally r (some k) 0 []) (f : Function D)
    (scratch : Option (Scratch D)) :
    Tally (r.invoke s k f scratch).2.2 (some k) (r.invoke s k f scratch).2.1.enlisted
      (r.invoke s k f scratch).2.1.awaited := by
  have hcall : Tally (r.countCall s k).2 (some k) 0 [] := { h with }
  refine run_induction (P := fun inv r => Tally r (some k) inv.enlisted inv.awaited)
    (fun _ _ _ h => h) (fun accepts d inv r _ h => ?_) (fun _ _ _ h => h)
    (fun _ _ h => { h with }) _ hcall
  have hnote := inv.note_bookkeeping accepts d (r.readOne s k d).1
  rw [hnote.1, hnote.2]
  exact h.readOne s d

theorem readGroup {s : Setting D} {k : D.Key} (h : Tally r (some k) 0 []) (since : Version)
    (group : List D.Key) :
    Tally (Round.readGroup s k since group .start r).2 (some k)
      (Round.readGroup s k since group .start r).1.enlisted
      (Round.readGroup s k since group .start r).1.waiting := by
  refine readGroup_induction (P := fun seen r => Tally r (some k) seen.enlisted seen.waiting)
    (fun d seen r h => ?_) group h
  have hnote := seen.note_bookkeeping since d (r.readOne s k d).1
  rw [hnote.1, hnote.2]
  exact h.readOne s d

/-! ## The end of an action -/

/-- A key that begins to act leaves the queue. -/
theorem pop (h : Tally r none 0 []) {k : D.Key} {rest : List D.Key} (hq : r.queue = k :: rest)
    {t : Task D} (ht : r.tasks.get? k = some t) :
    Tally { r with queue := rest } (some k) 0 [] := by
  have hnodup := hq ▸ h.nodup
  obtain ⟨hk, hrest⟩ := List.nodup_cons.mp hnodup
  refine ⟨h.unfinished, fun x t hx => ?_, fun x t hx d => ?_, h.ready, fun x t hx ha hb => ?_,
    fun x hx => h.working x (hq ▸ List.mem_cons_of_mem k hx), hrest, h.enrolled, fun x hb => ?_⟩
  · obtain ⟨sources, hnodup, hsources, hlength⟩ := h.counted x t hx
    exact ⟨sources, hnodup, hsources, by simpa [owed] using hlength⟩
  · refine (h.awaits x t hx d).trans ?_
    simp
  · have hxk : x ≠ k := fun e => hb (congrArg some e.symm)
    simpa [hq, hxk] using h.queued x t hx ha (by simp)
  · obtain rfl : k = x := Option.some.inj hb
    refine ⟨hk, ?_⟩
    rcases h.working k (hq ▸ List.mem_cons_self) with hc | hactive
    · rw [h.unfinished k t ht] at hc
      exact Bool.noConfusion hc
    · exact hactive

/-- The acting key expects no signal. -/
theorem expected_eq_zero {k : D.Key} (h : Tally r (some k) n met) {t : Task D}
    (ht : r.tasks.get? k = some t) : t.expected = 0 := by
  obtain ⟨-, t', ht', ha⟩ := h.acting k rfl
  obtain rfl := Option.some.inj (ht.symm.trans ht')
  exact (h.ready k t ht).mp ha

/-- A key that begins to act waits for nothing. -/
theorem isComplete_of_awaited {k : D.Key} (h : Tally r (some k) 0 []) {t : Task D}
    (ht : r.tasks.get? k = some t) {d : D.Key} (hd : d ∈ t.awaited) :
    r.graph.isComplete d = true := by
  have hzero : t.expected + owed (some k) 0 k = 0 := by simp [h.expected_eq_zero ht, owed]
  refine Bool.not_eq_false _ ▸ fun hinc => ?_
  exact h.not_enlisted ht hzero d ((h.awaits k t ht d).mpr ⟨.inl hd, hinc⟩)

/-- A queued key without a task is forgotten. -/
theorem skip (h : Tally r none 0 []) {k : D.Key} {rest : List D.Key} (hq : r.queue = k :: rest)
    (ht : r.tasks.get? k = none) : Tally { r with queue := rest } none 0 [] := by
  refine { h with
    queued := fun x t hx ha hb => ?_
    working := fun x hx => h.working x (hq ▸ List.mem_cons_of_mem k hx)
    nodup := (List.nodup_cons.mp (hq ▸ h.nodup)).2
    acting := fun x hb => by cases hb }
  have hxk : x ≠ k := by
    rintro rfl
    rw [ht] at hx
    cases hx
  simpa [hq, hxk] using h.queued x t hx ha hb

/-- The acting key counts what it was promised and met, and then goes on or waits. -/
theorem resumeOrPark {k : D.Key} (h : Tally r (some k) n met) {t t' : Task D}
    (ht : r.tasks.get? k = some t) (hwaiters : t'.waiters = t.waiters)
    (hawaited : ∀ d, d ∈ t'.awaited ↔ d ∈ t.awaited ∨ d ∈ met)
    (hexpected : t'.expected = t.expected + n) (hactive : t'.active = true) :
    Tally (r.resumeOrPark k t') none 0 [] := by
  obtain ⟨hkq, -⟩ := h.acting k rfl
  rw [resumeOrPark_of_active hactive]
  have hmem (x : D.Key) : x ∈ (if t'.expected = 0 then k :: r.queue else r.queue) ↔
      x ∈ r.queue ∨ t'.expected = 0 ∧ x = k := by
    split
    · rename_i hzero
      simp [hzero, or_comm]
    · rename_i hzero
      simp [hzero]
  have hcontains (x : D.Key) : (r.tasks.insert k { t' with
      active := decide (t'.expected = 0) }).contains x = r.tasks.contains x :=
    Table.contains_insert_of_contains (contains_of_get? ht) x _
  have henlisted (x d : D.Key) : ({ r with
      tasks := r.tasks.insert k { t' with active := decide (t'.expected = 0) }
      queue := if t'.expected = 0 then k :: r.queue else r.queue } : Round D).Enlisted x d ↔
        r.Enlisted x d := by
    rw [enlisted_of_insert (r := r) rfl]
    split
    · rename_i hd
      simp [hd, Enlisted, ht, hwaiters]
    · rfl
  have hother {x : D.Key} (hxk : x ≠ k) : (some k : Option D.Key) ≠ some x :=
    fun e => hxk (Option.some.inj e).symm
  constructor
  case unfinished =>
    intro x t₁ hx
    rcases Table.get?_insert_eq_some_iff.mp hx with ⟨rfl, -⟩ | ⟨-, hx⟩
    · exact h.unfinished x t ht
    · exact h.unfinished x t₁ hx
  case counted =>
    intro x t₁ hx
    simp only [henlisted]
    rcases Table.get?_insert_eq_some_iff.mp hx with ⟨rfl, rfl⟩ | ⟨hxk, hx⟩
    · obtain ⟨sources, hnodup, hsources, hlength⟩ := h.counted x t ht
      refine ⟨sources, hnodup, hsources, ?_⟩
      simp only [owed, if_true] at hlength
      simp only [owed, reduceCtorEq, if_false, hexpected]
      omega
    · obtain ⟨sources, hsources⟩ := h.counted x t₁ hx
      exact ⟨sources, by simpa [owed, hother hxk] using hsources⟩
  case awaits =>
    intro x t₁ hx d
    rw [henlisted]
    rcases Table.get?_insert_eq_some_iff.mp hx with ⟨rfl, rfl⟩ | ⟨hxk, hx⟩
    · rw [h.awaits x t ht d, hawaited]
      simp
    · rw [h.awaits x t₁ hx d]
      simp [hother hxk]
  case ready =>
    intro x t₁ hx
    rcases Table.get?_insert_eq_some_iff.mp hx with ⟨-, rfl⟩ | ⟨-, hx⟩
    · exact decide_eq_true_iff
    · exact h.ready x t₁ hx
  case queued =>
    intro x t₁ hx ha _
    simp only [hmem]
    rcases Table.get?_insert_eq_some_iff.mp hx with ⟨rfl, rfl⟩ | ⟨hxk, hx⟩
    · exact .inl (.inr ⟨of_decide_eq_true ha, rfl⟩)
    · exact (h.queued x t₁ hx ha (hother hxk)).imp_left .inl
  case working =>
    intro x hx
    rcases (hmem x).mp hx with hx | ⟨hzero, rfl⟩
    · have hxk : x ≠ k := fun e => hkq (e ▸ hx)
      refine (h.working x hx).imp_right ?_
      rintro ⟨t₁, ht₁, ha⟩
      exact ⟨t₁, Table.get?_insert_eq_some_iff.mpr (.inr ⟨hxk, ht₁⟩), ha⟩
    · exact .inr ⟨_, Table.get?_insert_self _ _ _, decide_eq_true hzero⟩
  case nodup =>
    dsimp only
    split
    · exact List.nodup_cons.mpr ⟨hkq, h.nodup⟩
    · exact h.nodup
  case enrolled =>
    intro x d hd
    rw [hcontains]
    exact h.enrolled x d ((henlisted x d).mp hd)
  case acting =>
    intro x hb
    cases hb

end Tally

end Round

end MemoGraph
