import MemoGraph.Proofs.Crew.Reflection
import MemoGraph.Proofs.Round.Accounts

/-!
# One worker alone: queueing and reading

Somebody who works alone takes one step after another, from stage to stage.  If the entries reflect
a round before, there is a stage at which they reflect what the round makes of the same request: a
key queued, a dependency read, a batch or a recorded group read, an invocation carried to its end.
-/

set_option autoImplicit false

namespace MemoGraph

variable {D : Domain} {s : Setting D}

/-- Somebody works alone, from one stage to another, and is not idle in between. -/
def Works (s : Setting D) : Live D × Stage D → Live D × Stage D → Prop :=
  Relation.ReflTransGen fun x y => x.2.isIdle = false ∧ x.2.step s x.1 = y

/-- Working alone leads to the stage `st`, and the entries then reflect the round. -/
def ComesTo (s : Setting D) (x : Live D × Stage D) (st : Stage D) (view : D.Key → Task D → Task D)
    (r : Round D) : Prop :=
  ∃ l, Works s x (l, st) ∧ Reflects view l r

section ComesTo

variable {view view' : D.Key → Task D → Task D} {l : Live D} {r r' : Round D} {st st' : Stage D}
  {x y z : Live D × Stage D}

/-- One step, and more. -/
theorem Works.step (hbusy : st.isIdle = false) (hstep : st.step s l = y) (h : Works s y z) :
    Works s (l, st) z :=
  .head ⟨hbusy, hstep⟩ h

namespace ComesTo

theorem here (h : Reflects view l r) : ComesTo s (l, st) st view r := ⟨l, .refl, h⟩

/-- One step, and more. -/
theorem step (hbusy : st.isIdle = false) (hstep : st.step s l = y)
    (h : ComesTo s y st' view r) : ComesTo s (l, st) st' view r := by
  obtain ⟨l', hworks, h'⟩ := h
  exact ⟨l', hworks.step hbusy hstep, h'⟩

theorem andThen (h : ComesTo s x st view r)
    (hnext : ∀ {l : Live D}, Reflects view l r → ComesTo s (l, st) st' view' r') :
    ComesTo s x st' view' r' := by
  obtain ⟨l, hworks, h⟩ := h
  obtain ⟨l', hworks', h'⟩ := hnext h
  exact ⟨l', hworks.trans hworks', h'⟩

end ComesTo

end ComesTo

/-- The stage after an invocation. -/
def Ending.stage (k : D.Key) (inv : Invocation D) : Ending D → Stage D
  | .crash payload => .dooming (.crashed k payload)
  | ending => .returned k inv ending

/-- A reader is the first to wait for a key that it brings under evaluation. -/
theorem Round.await_demand {r : Round D} {dep : D.Key} (hc : r.graph.isComplete dep = false)
    (hnone : r.tasks.get? dep = none) (k : D.Key) :
    (r.demand s dep).await k dep = (true, (r.demand s dep).putTask dep
      { Task.start (r.graph.node dep).status with waiters := OrderedSet.insert ∅ k }) := by
  have htask : (r.demand s dep).tasks.get? dep = some (.start (r.graph.node dep).status) := by
    rcases demand_cases s r dep with ⟨hknown, -⟩ | ⟨-, -, he⟩
    · rw [hc, Table.contains, hnone] at hknown
      simp at hknown
    · rw [he]
      exact Table.get?_insert_self _ _ _
  simp only [await, htask]
  exact if_neg (OrderedSet.not_mem_empty k)

namespace Reflects

variable {view : D.Key → Task D → Task D} {l : Live D} {r : Round D} {k : D.Key}
  {f : Task D → Task D}

/-! ## Queueing -/

/-- A key is queued, unless the round is stopping. -/
theorem from_queueing (h : Reflects view l r) (x : D.Key) (next : Next D) :
    ComesTo s (l, .queueing x next) next.stage view (r.enqueue x) := by
  unfold Round.enqueue
  split
  · rename_i hs
    refine .step rfl ?_ (.here h)
    simp [Stage.step, h.stopping, hs]
  · rename_i hs
    have hsent : Reflects view { l with queue := l.queue ++ [x] }
        { r with queue := r.queue ++ [x] } := { h with queue := by rw [h.queue] }
    have hsend : (Stage.queueing x next).step s l = (l, .sending x next) := by
      simp [Stage.step, h.stopping, hs]
    exact .step rfl hsend (.step rfl rfl (.here hsent))

/-- A key that came under evaluation is noted, announced and queued. -/
theorem from_touching (h : Reflects view l r) (x : D.Key) (next : Next D) :
    ComesTo s (l, .touching x next) next.stage view ((r.record s (.enqueued x)).enqueue x) := by
  have htouched : Reflects view { l with touched := l.touched.insert x } r := { h with }
  exact .step rfl rfl (.step rfl rfl ((htouched.record (.enqueued x)).from_queueing x next))

/-! ## Reading one dependency -/

/-- A dependency with an outcome shows it. -/
theorem from_looking_settled (h : Reflects view l r) (reader : Reader D) (dep : D.Key)
    (rest : List D.Key) {o : Outcome D} (ho : (r.graph.node dep).settled? = some o) :
    ComesTo s (l, .looking k reader dep rest)
      (.reading k (reader.note dep (.ofOutcome o (r.graph.node dep).changedAt)) rest) view r := by
  have hsettled := (h.settled dep).trans ho
  have hchanged : (l.entry dep).changedAt = (r.graph.node dep).changedAt := by
    rw [h.entry, Entry.changedAt_join]
  refine .step rfl ?_ (.here h)
  cases o with
  | value v => simp only [Stage.step, Live.look, hsettled, hchanged, Reply.ofOutcome_value]
  | failure e => simp only [Stage.step, Live.look, hsettled, hchanged, Reply.ofOutcome_failure]

/-- The reader waits for a dependency that is under evaluation. -/
theorem from_looking_waiting (h : Reflects view l r) (hkeeps : KeepsWaiters view)
    (reader : Reader D) {dep : D.Key} (hdep : dep ∈ l.store.keys) (rest : List D.Key)
    (ho : (r.graph.node dep).settled? = none)
    (hknown : r.graph.isComplete dep = true ∨ r.tasks.contains dep = true) :
    ComesTo s (l, .looking k reader dep rest)
      (.reading k (reader.note dep (.pending (r.await k dep).1)) rest) view (r.await k dep).2 := by
  obtain ⟨hbegins, hbegin⟩ := h.begin_of_known hknown
  obtain ⟨henlisted, hawait⟩ := h.await hkeeps hdep k
  refine .step rfl ?_ (.here hawait)
  simp only [Stage.step, Live.look, (h.settled dep).trans ho, hbegins, hbegin, henlisted]
  rfl

/-- Any other dependency comes under evaluation, with the reader among its waiters. -/
theorem from_looking_begun (h : Reflects view l r) (reader : Reader D) {dep : D.Key}
    (hdep : dep ∈ l.store.keys) (rest : List D.Key) (hc : r.graph.isComplete dep = false)
    (hnone : r.tasks.get? dep = none) {t : Task D}
    (ht : t = { Task.start (r.graph.node dep).status with
      waiters := OrderedSet.insert ∅ k }) (hview : view dep t = t) :
    ComesTo s (l, .looking k reader dep rest)
      (.reading k (reader.note dep (.pending true)) rest) view
      (((r.putTask dep t).record s (.enqueued dep)).enqueue dep) := by
  have ho : (l.entry dep).node.settled? = none := by
    rw [h.settled, Node.settled?, if_neg]
    exact Bool.eq_false_iff.mp hc
  obtain ⟨hbegins, hbegin⟩ := h.begin_of_unknown hc hnone
  have hawait : (Entry.join (r.graph.node dep) (some (.start (r.graph.node dep).status))).await k =
      (true, .join (r.graph.node dep) (some t)) := by
    rw [ht]
    rfl
  have hbegun := h.give hdep hc hview fun _ _ => rfl
  refine .step rfl ?_ (hbegun.from_touching dep (.reading k (reader.note dep (.pending true)) rest))
  simp only [Stage.step, Live.look, ho, hbegins, hbegin, hawait]
  rfl

/-- A reader reads a dependency. -/
theorem from_asking (h : Reflects (inHand k f) l r) (hkeeps : KeepsWaiters (inHand k f))
    (hk : r.tasks.contains k = true) (hgo : r.interrupted = false) (reader : Reader D)
    (dep : D.Key) (rest : List D.Key) :
    ComesTo s (l, .asking k reader dep rest)
      (.reading k (reader.note dep (r.readOne s k dep).1) rest) (inHand k f)
      (r.readOne s k dep).2 := by
  have hcreate := h.create dep
  have hdep : dep ∈ (l.store.create dep).keys := Store.mem_keys_create _ _
  refine .step rfl rfl ?_
  cases ho : (r.graph.node dep).settled? with
  | some o =>
      have hdemand : r.demand s dep = { r with graph := r.graph.create dep } := by
        rcases Round.demand_cases s r dep with ⟨-, he⟩ | ⟨hc, -⟩
        · exact he
        · rw [(Graph.shows_of_settled ho).1] at hc
          cases hc
      have hlook := hcreate.from_looking_settled (s := s) (k := k) reader dep rest
        (by rwa [Graph.node_create])
      rw [Round.readOne_of_settled k dep hgo ho, hdemand]
      rwa [Graph.node_create] at hlook
  | none =>
      have ho' : ((r.graph.create dep).node dep).settled? = none := by rwa [Graph.node_create]
      rw [Round.readOne_of_unsettled k dep hgo ho]
      rcases Round.demand_cases s r dep with ⟨hknown, he⟩ | ⟨hc, hnone, he⟩
      · rw [he]
        exact hcreate.from_looking_waiting hkeeps reader hdep rest ho'
          (by simpa [Graph.isComplete] using hknown)
      · have hne : dep ≠ k := by
          rintro rfl
          rw [Table.contains, hnone] at hk
          cases hk
        let t : Task D := { Task.start (r.graph.node dep).status with
          waiters := OrderedSet.insert ∅ k }
        have hlook := hcreate.from_looking_begun (s := s) (k := k) (t := t) reader hdep rest
          (by simpa [Graph.isComplete] using hc) hnone (by rw [Graph.node_create])
          (inHand_of_ne hne f t)
        rw [Round.await_demand hc hnone, he]
        refine hlook.andThen fun hl => .here (hl.congr ?_ ?_ (fun x => ?_) fun x => ?_)
        all_goals rw [Round.enqueue_eq]
        · rfl
        · rfl
        · rfl
        · simp only [Round.putTask, Round.record, Table.get?_insert]
          split
          · rfl
          · rfl

/-- A dependency is read, unless the round is to stop. -/
theorem from_reading (h : Reflects (inHand k f) l r) (hkeeps : KeepsWaiters (inHand k f))
    (hk : r.tasks.contains k = true) (hgo : r.interrupted = false) (reader : Reader D)
    (dep : D.Key) (rest : List D.Key) :
    ComesTo s (l, .reading k reader (dep :: rest))
      (.reading k (reader.note dep (r.readOne s k dep).1) rest) (inHand k f)
      (r.readOne s k dep).2 := by
  refine .step rfl ?_ (h.from_asking hkeeps hk hgo reader dep rest)
  simp [Stage.step, h.interrupted, hgo]

/-! ## Reading many -/

/-- A dependency in a batch is read, or found missing if the round is to stop. -/
theorem from_reading_batch (h : Reflects (inHand k f) l r) (hkeeps : KeepsWaiters (inHand k f))
    (hk : r.tasks.contains k = true) (accepts : D.Fault → Bool)
    (next : Table D.Key (Answer D) → Recipe D) (dep : D.Key) (rest : List D.Key)
    (inv : Invocation D) (answers : List (D.Key × Answer D)) :
    ComesTo s (l, .reading k (.batch inv accepts answers next) (dep :: rest))
      (.reading k (.batch (inv.note accepts dep (r.readOne s k dep).1).2 accepts
        (answers ++ [(dep, (inv.note accepts dep (r.readOne s k dep).1).1)]) next) rest)
      (inHand k f) (r.readOne s k dep).2 := by
  cases hi : r.interrupted with
  | false => exact h.from_reading hkeeps hk hi _ dep rest
  | true =>
      rw [Round.readOne_of_interrupted k dep hi]
      refine .step rfl ?_ (.here h)
      simp only [Stage.step, h.interrupted, hi, if_true]
      rfl

/-- The keys of a batch are read, whether the round is to stop or not. -/
theorem from_reading_all (h : Reflects (inHand k f) l r) (hkeeps : KeepsWaiters (inHand k f))
    (hk : r.tasks.contains k = true) (accepts : D.Fault → Bool)
    (next : Table D.Key (Answer D) → Recipe D) (batch : List D.Key) (inv : Invocation D)
    (answers : List (D.Key × Answer D)) :
    ComesTo s (l, .reading k (.batch inv accepts answers next) batch)
      (.reading k (.batch (r.readEach s k accepts batch inv).2.1 accepts
        (answers ++ (r.readEach s k accepts batch inv).1) next) []) (inHand k f)
      (r.readEach s k accepts batch inv).2.2 := by
  induction batch generalizing l r inv answers with
  | nil =>
      rw [Round.readEach, List.append_nil]
      exact .here h
  | cons dep rest ih =>
      refine (h.from_reading_batch hkeeps hk accepts next dep rest inv answers).andThen fun h => ?_
      have hrest := ih h ((Round.reads_readOne s r k dep).contains hk)
        (inv.note accepts dep (r.readOne s k dep).1).2
        (answers ++ [(dep, (inv.note accepts dep (r.readOne s k dep).1).1)])
      rw [List.append_assoc] at hrest
      exact hrest

/-- The keys of a recorded group are read, up to the moment when the round is to stop. -/
theorem from_reading_group (h : Reflects (inHand k f) l r) (hkeeps : KeepsWaiters (inHand k f))
    (hk : r.tasks.contains k = true) (i : Nat) (since : Version) (group : List D.Key)
    {g : GroupReading D.Key} (hg : g.cut = false) :
    ComesTo s (l, .reading k (.group i since g) group)
      (if (Round.readGroup s k since group g r).1.cut then .idle
        else .judging k i (Round.readGroup s k since group g r).1) (inHand k f)
      (Round.readGroup s k since group g r).2 := by
  induction group generalizing l r g with
  | nil =>
      refine .step rfl ?_ (.here h)
      simp only [Stage.step, Round.readGroup, hg]
      rfl
  | cons dep rest ih =>
      cases hi : r.interrupted with
      | false =>
          have huncut : (g.note since dep (r.readOne s k dep).1).cut = false := by
            cases ho : (r.graph.node dep).settled? with
            | none =>
                rw [Round.readOne_of_unsettled k dep hi ho]
                exact hg
            | some o =>
                rw [Round.readOne_of_settled k dep hi ho]
                cases o with
                | value v => exact hg
                | failure e => exact hg
          exact (h.from_reading hkeeps hk hi _ dep rest).andThen fun h =>
            ih h ((Round.reads_readOne s r k dep).contains hk) huncut
      | true =>
          have hstop : (Round.readGroup s k since (dep :: rest) g r).1.cut = true ∧
              (Round.readGroup s k since (dep :: rest) g r).2 = r := by
            rw [Round.readGroup, Round.readOne_of_interrupted k dep hi]
            refine Round.readGroup_induction (P := fun g' r' => g'.cut = true ∧ r' = r)
              (fun dep' g' r' h' => ?_) rest ⟨rfl, rfl⟩
            rw [h'.2, Round.readOne_of_interrupted k dep' hi]
            exact ⟨rfl, rfl⟩
          rw [hstop.1, hstop.2]
          refine .step rfl ?_ (.here h)
          simp [Stage.step, h.interrupted, hi, Reader.cut]

/-! ## Invocations -/

/-- An invocation is carried to its end. -/
theorem from_running (h : Reflects (inHand k f) l r) (hkeeps : KeepsWaiters (inHand k f))
    (hk : r.tasks.contains k = true) (recipe : Recipe D) (inv : Invocation D) :
    ComesTo s (l, .running k inv recipe)
      ((recipe.run s k inv r).1.stage k (recipe.run s k inv r).2.1) (inHand k f)
      (recipe.run s k inv r).2.2 := by
  induction recipe generalizing l r inv with
  | value v => exact .step rfl rfl (.here h)
  | needsDeps => exact .step rfl rfl (.here h)
  | fault e => exact .step rfl rfl (.here h)
  | crash payload => exact .step rfl rfl (.here h)
  | read batch accepts next ih =>
      let requesting : Invocation D := { inv with batches := inv.batches ++ [batch] }
      have hread := h.from_reading_all (s := s) hkeeps hk accepts next batch requesting []
      have hreads := Round.reads_readEach (s := s) (k := k) accepts batch requesting r
      exact .step rfl rfl (hread.andThen fun h => .step rfl rfl (ih _ h (hreads.contains hk) _))
  | valuesMissing next ih => exact .step rfl rfl (ih _ h hk inv)
  | isInterrupted next ih =>
      refine .step rfl ?_ (ih r.interrupted h hk inv)
      simp only [Stage.step, Recipe.turn, h.interrupted]
  | version next ih => exact .step rfl rfl (ih _ h hk inv)
  | load slot next ih => exact .step rfl rfl (ih _ h hk _)
  | store slot content next ih => exact .step rfl rfl (ih h hk _)
  | interrupt next ih =>
      have hstop : Reflects (inHand k f) { l with interrupted := true }
          { r with interrupted := true } := { h with interrupted := rfl }
      exact .step rfl rfl (ih hstop hk inv)

end Reflects

end MemoGraph
