import MemoGraph.Graph

/-!
# Edges in both directions

Every edge of a graph is stored twice: a reader lists its dependency, and the dependency lists its
reader.  This module follows both lists, and what a node stores besides, through the operations of
the store.  Main statement: recording dependencies keeps a mirrored graph mirrored.
-/

set_option autoImplicit false

namespace MemoGraph

variable {D : Domain}

namespace Node

/-- A node without its reverse dependencies: what evaluating the key leaves behind. -/
def memo (n : Node D) : Node D := { n with rdeps := ∅ }

theorem memo_eq_iff {n m : Node D} :
    n.memo = m.memo ↔ n.status = m.status ∧ n.outcome = m.outcome ∧ n.deps = m.deps ∧
      n.changedAt = m.changedAt ∧ n.evaluatedAt = m.evaluatedAt := by
  cases n
  cases m
  simp [memo]

theorem isComplete_of_memo_eq {n m : Node D} (h : n.memo = m.memo) :
    n.isComplete = m.isComplete := by
  simp only [isComplete, (memo_eq_iff.mp h).1]

theorem settled?_of_memo_eq {n m : Node D} (h : n.memo = m.memo) :
    n.settled? = m.settled? := by
  simp only [settled?, isComplete_of_memo_eq h, (memo_eq_iff.mp h).2.1]

end Node

namespace Graph

/-! ## Graphs with the same nodes -/

theorem mem_keys_iff_contains {g : Graph D} {k : D.Key} : k ∈ g.keys ↔ g.contains k = true :=
  Table.contains_iff_mem_keys.symm

theorem get?_eq_ite (g : Graph D) (k : D.Key) :
    g.get? k = if k ∈ g.keys then some (g.node k) else none := by
  split
  · rename_i hk
    obtain ⟨n, hn⟩ := Table.mem_keys_iff.mp hk
    rw [node, show g.get? k = some n from hn]
    rfl
  · rename_i hk
    refine Option.eq_none_iff_forall_ne_some.mpr fun n hn => hk ?_
    exact Table.mem_keys_iff.mpr ⟨n, hn⟩

/-- A graph is its keys with their nodes. -/
theorem ext_node {g g' : Graph D} (hkeys : g.keys = g'.keys)
    (hnode : ∀ k, g.node k = g'.node k) : g = g' := by
  have hnodes : g.nodes = g'.nodes := by
    refine Table.eq_of_get? hkeys fun k => ?_
    have h := get?_eq_ite g k
    rw [hkeys, hnode, ← get?_eq_ite g' k] at h
    exact h
  cases g
  cases g'
  exact congrArg Graph.mk hnodes

theorem keys_update (g : Graph D) (k : D.Key) (f : Node D → Node D) :
    (g.update k f).keys = if k ∈ g.keys then g.keys else g.keys ++ [k] :=
  Table.keys_insert _ _ _

theorem keys_create (g : Graph D) (k : D.Key) :
    (g.create k).keys = if k ∈ g.keys then g.keys else g.keys ++ [k] := by
  unfold create
  by_cases hk : g.contains k = true
  · rw [if_pos hk, if_pos (mem_keys_iff_contains.mpr hk)]
  · rw [if_neg hk]
    exact Table.keys_insert _ _ _

/-! ## Single edges -/

@[simp] theorem memo_link (g : Graph D) (parent dep k : D.Key) :
    ((g.link parent dep).node k).memo = (g.node k).memo := by
  rw [link, node_update]
  split
  · subst_vars
    rfl
  · rfl

@[simp] theorem memo_unlink (g : Graph D) (parent dep k : D.Key) :
    ((g.unlink parent dep).node k).memo = (g.node k).memo := by
  rw [unlink, node_adjust]
  split
  · rename_i h
    rw [h.1]
    rfl
  · rfl

theorem mem_rdeps_link {g : Graph D} {parent dep k x : D.Key} :
    x ∈ ((g.link parent dep).node k).rdeps ↔ x ∈ (g.node k).rdeps ∨ (k = dep ∧ x = parent) := by
  rw [link, node_update]
  by_cases h : k = dep
  · simp [h]
  · simp [h]

theorem mem_rdeps_unlink {g : Graph D} {parent dep k x : D.Key} :
    x ∈ ((g.unlink parent dep).node k).rdeps ↔
      x ∈ (g.node k).rdeps ∧ ¬ (k = dep ∧ x = parent) := by
  rw [unlink, node_adjust]
  by_cases h : k = dep
  · subst h
    cases hc : g.contains k with
    | true => simp
    | false =>
        -- An unknown key is left alone, and nothing reads it.
        rw [node_of_not_contains hc]
        simp [Node.fresh]
  · simp [h]

/-! ## Several edges of one reader -/

theorem memo_foldl_link (parent k : D.Key) (deps : List D.Key) (g : Graph D) :
    ((deps.foldl (fun g dep => g.link parent dep) g).node k).memo = (g.node k).memo := by
  induction deps generalizing g with
  | nil => rfl
  | cons dep rest ih => rw [List.foldl_cons, ih, memo_link]

theorem memo_foldl_unlink (parent k : D.Key) (deps : List D.Key) (g : Graph D) :
    ((deps.foldl (fun g dep => g.unlink parent dep) g).node k).memo = (g.node k).memo := by
  induction deps generalizing g with
  | nil => rfl
  | cons dep rest ih => rw [List.foldl_cons, ih, memo_unlink]

theorem mem_rdeps_foldl_link {parent k x : D.Key} {deps : List D.Key} {g : Graph D} :
    x ∈ ((deps.foldl (fun g dep => g.link parent dep) g).node k).rdeps ↔
      x ∈ (g.node k).rdeps ∨ (k ∈ deps ∧ x = parent) := by
  induction deps generalizing g with
  | nil => simp
  | cons dep rest ih =>
      rw [List.foldl_cons, ih, mem_rdeps_link, List.mem_cons]
      grind

theorem mem_rdeps_foldl_unlink {parent k x : D.Key} {deps : List D.Key} {g : Graph D} :
    x ∈ ((deps.foldl (fun g dep => g.unlink parent dep) g).node k).rdeps ↔
      x ∈ (g.node k).rdeps ∧ ¬ (k ∈ deps ∧ x = parent) := by
  induction deps generalizing g with
  | nil => simp
  | cons dep rest ih =>
      rw [List.foldl_cons, ih, mem_rdeps_unlink, List.mem_cons]
      grind

/-! ## Recorded dependencies -/

/-- Recording dependencies changes nothing else that a node stores, its readers apart. -/
theorem memo_setDeps (g : Graph D) (k k' : D.Key) (deps : DepGroups D.Key) :
    ((g.setDeps k deps).node k').memo =
      (if k' = k then { g.node k with deps := deps } else g.node k').memo := by
  rw [setDeps, memo_foldl_link, memo_foldl_unlink, node_update]

/-- Recording dependencies does not change what is stored. -/
theorem changes_setDeps (g : Graph D) (k : D.Key) (deps : DepGroups D.Key) (o : Outcome D) :
    (g.setDeps k deps).changes k o = g.changes k o := by
  have houtcome : ((g.setDeps k deps).node k).outcome = (g.node k).outcome := by
    rw [(Node.memo_eq_iff.mp (memo_setDeps g k k deps)).2.1, if_pos rfl]
  rw [changes, changes, Node.holds, Node.holds, houtcome]

theorem deps_setDeps (g : Graph D) (k k' : D.Key) (deps : DepGroups D.Key) :
    ((g.setDeps k deps).node k').deps = if k' = k then deps else (g.node k').deps := by
  rw [(Node.memo_eq_iff.mp (memo_setDeps g k k' deps)).2.2.1]
  split
  · rfl
  · rfl

/-- Recording dependencies makes the key a reader of exactly these. -/
theorem mem_rdeps_setDeps {g : Graph D} {k d x : D.Key} {deps : DepGroups D.Key} :
    x ∈ ((g.setDeps k deps).node d).rdeps ↔
      (x ∈ (g.node d).rdeps ∧ ¬ (x = k ∧ d ∈ (g.node k).deps.keys ∧ d ∉ deps.keys)) ∨
        (x = k ∧ d ∈ deps.keys) := by
  have hrdeps : ((g.update k fun n => { n with deps := deps }).node d).rdeps =
      (g.node d).rdeps := by
    rw [node_update]
    split
    · subst_vars
      rfl
    · rfl
  rw [setDeps, mem_rdeps_foldl_link, mem_rdeps_foldl_unlink, hrdeps]
  simp only [List.mem_filter, Bool.not_eq_true', Bool.eq_false_iff, ne_eq, DepGroups.contains_iff]
  grind

/-- Both directions of every edge are stored. -/
def Mirrored (g : Graph D) : Prop :=
  ∀ k d : D.Key, d ∈ (g.node k).deps.keys ↔ k ∈ (g.node d).rdeps

theorem mirrored_empty : (∅ : Graph D).Mirrored := by
  intro k d
  have hnode (x : D.Key) : (∅ : Graph D).node x = Node.fresh := rfl
  rw [hnode, hnode]
  simp [Node.fresh]

/-- A mirrored graph stays mirrored if no edge changes. -/
theorem Mirrored.of_same_edges {g g' : Graph D} (h : g.Mirrored)
    (hdeps : ∀ k, (g'.node k).deps = (g.node k).deps)
    (hrdeps : ∀ k, (g'.node k).rdeps = (g.node k).rdeps) : g'.Mirrored := by
  intro k d
  rw [hdeps, hrdeps]
  exact h k d

/-- Rewriting a node keeps the graph mirrored if the edges of the node stay. -/
theorem Mirrored.update {g : Graph D} (h : g.Mirrored) (k : D.Key) {f : Node D → Node D}
    (hdeps : (f (g.node k)).deps = (g.node k).deps)
    (hrdeps : (f (g.node k)).rdeps = (g.node k).rdeps) : (g.update k f).Mirrored := by
  refine h.of_same_edges (fun k' => ?_) (fun k' => ?_)
  · rw [node_update]
    split
    · rename_i hk
      rw [hdeps, hk]
    · rfl
  · rw [node_update]
    split
    · rename_i hk
      rw [hrdeps, hk]
    · rfl

theorem Mirrored.setDeps {g : Graph D} (h : g.Mirrored) (k : D.Key) (deps : DepGroups D.Key) :
    (g.setDeps k deps).Mirrored := by
  intro k' d
  rw [deps_setDeps, mem_rdeps_setDeps, ← h k' d]
  by_cases hk : k' = k
  · subst hk
    simp only [if_true, true_and]
    grind
  · simp [hk]

/-- An edge joins known keys: an unknown key reads nothing and is read by nothing. -/
theorem Mirrored.contains_of_dep {g : Graph D} (h : g.Mirrored) {k d : D.Key}
    (hd : d ∈ (g.node k).deps.keys) : g.contains k = true ∧ g.contains d = true := by
  constructor
  · cases hk : g.contains k with
    | true => rfl
    | false =>
        rw [node_of_not_contains hk] at hd
        simp [Node.fresh] at hd
  · cases hc : g.contains d with
    | true => rfl
    | false =>
        have hr := (h k d).mp hd
        rw [node_of_not_contains hc] at hr
        simp [Node.fresh] at hr

/-! ## Outcomes -/

theorem node_publish (g : Graph D) (k k' : D.Key) (o : Outcome D) (version : Version) :
    (g.publish k o version).node k' =
      if k' = k then (g.node k).publish o version else g.node k' :=
  node_update g k k' _

theorem node_confirm (g : Graph D) (k k' : D.Key) (version : Version) :
    (g.confirm k version).node k' =
      if k' = k then (g.node k).confirm version else g.node k' :=
  node_update g k k' _

theorem Mirrored.publish {g : Graph D} (h : g.Mirrored) (k : D.Key) (o : Outcome D)
    (version : Version) : (g.publish k o version).Mirrored :=
  h.update k rfl rfl

theorem Mirrored.confirm {g : Graph D} (h : g.Mirrored) (k : D.Key) (version : Version) :
    (g.confirm k version).Mirrored :=
  h.update k rfl rfl

theorem Mirrored.inject {g : Graph D} (h : g.Mirrored) (k : D.Key) (v : D.Value)
    (version : Version) : (g.inject k v version).Mirrored :=
  (h.setDeps k ∅).publish k (.value v) version

end Graph

end MemoGraph
