import MemoGraph.Proofs.Round.Accounts
import MemoGraph.Round.Report

/-!
# What a report shows

A root is listed with exactly what it shows, and a complete root shows what its node holds.  So a
complete root is listed once: among the values or among the failures.
-/

set_option autoImplicit false

namespace MemoGraph

variable {D : Domain}

/-- The root is listed with the outcome, among the values or among the failures but not among
both. -/
inductive Report.Lists (p : Report D) (root : D.Key) : Outcome D → Prop where
  /-- among the values -/
  | value {v : D.Value} : p.values.get? root = some v → p.failures.get? root = none →
      Lists p root (.value v)
  /-- among the failures -/
  | failure {e : Failure D.Key D.Fault} : p.values.get? root = none →
      p.failures.get? root = some e → Lists p root (.failure e)

/-- Only which keys are fresh matters for the downward search. -/
theorem descend_congr {K E : Type} [DecidableEq K] (next : K → List K) (hit : K → Option E)
    {fresh fresh' : List K} (stack : List (K × List K)) (h : ∀ x, x ∈ fresh ↔ x ∈ fresh') :
    descend next hit fresh stack = descend next hit fresh' stack := by
  fun_induction descend next hit fresh stack generalizing fresh' with
  | case1 fresh => rw [descend]
  | case2 fresh k above below hk e he =>
      rw [descend, dif_pos ((h k).mp hk), he]
  | case3 fresh k above below hk he ih =>
      rw [descend, dif_pos ((h k).mp hk), he]
      exact ih fun x => by rw [mem_without, mem_without, h]
  | case4 fresh k above below hk ih =>
      rw [descend, dif_neg (mt (h k).mpr hk)]
      exact ih h

namespace Round

/-- Storing what some keys show, over the rows of a table. -/
theorem get?_foldl_shown {α : Type} (shown : D.Key → Option α) (keys : List D.Key)
    (t : Table D.Key α) (k : D.Key) :
    ((keys.filterMap fun x => (shown x).map fun a => (x, a)).foldl
      (fun t e => t.insert e.1 e.2) t).get? k =
        (if k ∈ keys then shown k else none).or (t.get? k) := by
  induction keys generalizing t with
  | nil => simp
  | cons x rest ih =>
      cases hx : shown x with
      | none =>
          rw [List.filterMap_cons_none (by simp [hx]), ih]
          by_cases hk : k = x
          · simp [hk, hx]
          · simp [hk]
      | some a =>
          rw [List.filterMap_cons_some (by simp [hx]; rfl), List.foldl_cons, ih, Table.get?_insert]
          by_cases hk : k = x
          · by_cases hmem : x ∈ rest
            · simp [hk, hx, hmem]
            · simp [hk, hx, hmem]
          · simp [hk]

theorem get?_collect {α : Type} (s : Setting D) (r : Round D) (pick : Outcome D → Option α)
    (root : D.Key) : (r.collect s pick).get? root =
      if root ∈ s.roots then (r.outcome? root).bind pick else none := by
  unfold collect Table.ofList
  rw [get?_foldl_shown fun root => (r.outcome? root).bind pick]
  simp [OrderedSet.mem_def]

/-- A key that can be read shows what its node holds. -/
theorem outcome?_of_isComplete {s : Setting D} {r : Round D} (h : Grounded s r) {k : D.Key}
    (hk : r.graph.isComplete k = true) : r.outcome? k = (r.graph.node k).outcome := by
  obtain ⟨o, hsettled, ho⟩ := h.graph.settled hk
  simp only [outcome?, hsettled, ho]

/-- A root that can be read is listed with what its node holds, and in no other way. -/
theorem lists_of_isComplete {s : Setting D} {r : Round D} (h : Grounded s r) {root : D.Key}
    (hroot : root ∈ s.roots) (hk : r.graph.isComplete root = true) {o : Outcome D}
    (ho : (r.graph.node root).outcome = some o) : (r.report s).Lists root o := by
  have hshown := (outcome?_of_isComplete h hk).trans ho
  have hvalues := get?_collect s r Outcome.value? root
  have hfailures := get?_collect s r Outcome.failure? root
  rw [if_pos hroot, hshown, Option.bind_some] at hvalues hfailures
  cases o with
  | value v => exact .value hvalues hfailures
  | failure e => exact .failure hvalues hfailures

/-- A root that can be read is listed once. -/
theorem listed_of_isComplete {s : Setting D} {r : Round D} (h : Grounded s r) {root : D.Key}
    (hroot : root ∈ s.roots) (hk : r.graph.isComplete root = true) :
    (root ∈ (r.report s).values.keys ∧ root ∉ (r.report s).failures.keys) ∨
      (root ∉ (r.report s).values.keys ∧ root ∈ (r.report s).failures.keys) := by
  obtain ⟨o, -, ho⟩ := h.graph.settled hk
  simp only [Table.mem_keys_iff]
  cases lists_of_isComplete h hroot hk ho with
  | @value v hv he => exact .inl ⟨⟨v, hv⟩, by simp [he]⟩
  | @failure e hv he => exact .inr ⟨by simp [hv], ⟨e, he⟩⟩

/-- What a root shows that is listed with a value. -/
theorem shows_of_value {s : Setting D} {r : Round D} {root : D.Key} {v : D.Value}
    (h : (r.report s).values.get? root = some v) :
    root ∈ s.roots ∧ r.graph.Shows root (.value v) := by
  have hget := (get?_collect s r Outcome.value? root).symm.trans h
  obtain ⟨hroot, hget⟩ := Option.ite_none_right_eq_some.mp hget
  refine ⟨hroot, ?_⟩
  obtain ⟨o, ho, hv⟩ := Option.bind_eq_some_iff.mp hget
  cases o with
  | failure e => cases hv
  | value v' =>
      obtain rfl := Option.some.inj hv
      unfold outcome? at ho
      split at ho
      · rename_i o' hsettled
        obtain rfl := Option.some.inj ho
        exact Graph.shows_of_settled hsettled
      · obtain ⟨e, -, he⟩ := Option.map_eq_some_iff.mp ho
        cases he

/-- What a root shows that is listed with a failure: its own, or one from below. -/
theorem shows_of_failure {s : Setting D} {r : Round D} {root : D.Key} {e : Failure D.Key D.Fault}
    (h : (r.report s).failures.get? root = some e) :
    root ∈ s.roots ∧ (r.graph.Shows root (.failure e) ∨ r.failureBelow root = some e) := by
  have hget := (get?_collect s r Outcome.failure? root).symm.trans h
  obtain ⟨hroot, hget⟩ := Option.ite_none_right_eq_some.mp hget
  refine ⟨hroot, ?_⟩
  obtain ⟨o, ho, he⟩ := Option.bind_eq_some_iff.mp hget
  cases o with
  | value v => cases he
  | failure e' =>
      obtain rfl := Option.some.inj he
      unfold outcome? at ho
      split at ho
      · rename_i o' hsettled
        obtain rfl := Option.some.inj ho
        exact .inl (Graph.shows_of_settled hsettled)
      · obtain ⟨e, hbelow, heq⟩ := Option.map_eq_some_iff.mp ho
        cases heq
        exact .inr hbelow

/-- Rounds with the same tasks and the same outcomes report the same, if they broke the same
cycles. -/
theorem report_congr {s : Setting D} {r r' : Round D}
    (htask : ∀ x, r'.tasks.get? x = r.tasks.get? x)
    (hsettled : ∀ x, (r'.graph.node x).settled? = (r.graph.node x).settled?)
    (hcycles : r'.cycles = r.cycles) : r'.report s = r.report s := by
  have hdemanded : r'.demanded = r.demanded := by
    funext x
    simp only [demanded, htask]
  have hbelow : r'.failureBelow = r.failureBelow := by
    funext root
    simp only [failureBelow, hdemanded, Node.failure?, hsettled]
    refine congrArg _ (descend_congr _ _ _ fun x => ?_)
    rw [Table.mem_keys_iff, Table.mem_keys_iff]
    simp only [htask]
  have hshown : r'.outcome? = r.outcome? := by
    funext root
    simp only [outcome?, hsettled, hbelow]
  simp only [report, collect, hshown, hcycles]

end Round

end MemoGraph
