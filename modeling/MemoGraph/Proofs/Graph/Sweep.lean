import MemoGraph.Graph.Invalidation
import MemoGraph.Proofs.Graph.Edges

/-!
# What invalidation and deletion leave

Invalidation changes the status of nodes and nothing else, and it does not leave a complete reader
above a dependency that it took the trust from.  Deletion takes whole nodes, and with a node
everything that reads it, so no survivor loses a dependency.
-/

set_option autoImplicit false

namespace MemoGraph

variable {D : Domain}

namespace Node

theorem strike_eq (n : Node D) : n.strike = { n with status := n.strike.status } := by
  unfold strike
  split
  · rfl
  · rfl

theorem soil_eq (n : Node D) : n.soil = { n with status := n.soil.status } := by
  unfold soil
  split
  · rfl
  · rfl

/-- A struck node is new or has to be rebuilt. -/
theorem status_strike (n : Node D) : n.strike.status = .new ∨ n.strike.status = .changed := by
  unfold strike isComplete isDirty
  cases hs : n.status with
  | new => exact .inl (by simp [hs])
  | dirty => exact .inr (by simp)
  | changed => exact .inr (by simp)
  | current => exact .inr (by simp)

theorem status_soil (n : Node D) :
    n.soil.status = if n.status = .current then .dirty else n.status := by
  unfold soil isComplete
  by_cases h : n.status = .current
  · simp [h]
  · simp [h]

@[simp] theorem strike_strike (n : Node D) : n.strike.strike = n.strike := by
  conv => lhs; rw [strike]
  rcases n.status_strike with h | h
  · simp [isComplete, isDirty, h]
  · simp only [isComplete, isDirty, h]
    rw [n.strike_eq, h]
    rfl

@[simp] theorem soil_soil (n : Node D) : n.soil.soil = n.soil := by
  conv => lhs; rw [soil]
  rw [if_neg]
  simp only [isComplete, status_soil, decide_eq_true_eq]
  split
  · simp
  · assumption

end Node

namespace Graph

/-- A key that needs no work is known. -/
theorem contains_of_isComplete {g : Graph D} {k : D.Key} (h : g.isComplete k = true) :
    g.contains k = true := by
  cases hc : g.contains k with
  | true => rfl
  | false =>
      rw [isComplete, node_of_not_contains hc] at h
      simp [Node.isComplete, Node.fresh] at h

/-! ## Invalidation -/

theorem node_strike (g : Graph D) (k k' : D.Key) :
    (g.strike k).node k' = if k' = k then (g.node k).strike else g.node k' := by
  rw [strike, node_adjust]
  by_cases hk : k' = k
  · subst hk
    cases hc : g.contains k' with
    | true => simp
    | false =>
        -- Striking an unknown key does nothing, and a fresh node has nothing to strike.
        rw [node_of_not_contains hc]
        simp [Node.strike, Node.isComplete, Node.isDirty, Node.fresh]
  · simp [hk]

theorem node_soil (g : Graph D) (k k' : D.Key) :
    (g.soil k).node k' = if k' = k then (g.node k).soil else g.node k' := by
  rw [soil, node_adjust]
  by_cases hk : k' = k
  · subst hk
    cases hc : g.contains k' with
    | true => simp
    | false =>
        rw [node_of_not_contains hc]
        simp [Node.soil, Node.isComplete, Node.fresh]
  · simp [hk]

theorem node_foldl_strike (keys : List D.Key) (g : Graph D) (k : D.Key) :
    (keys.foldl strike g).node k = if k ∈ keys then (g.node k).strike else g.node k := by
  induction keys generalizing g with
  | nil => simp
  | cons x rest ih =>
      rw [List.foldl_cons, ih, node_strike]
      by_cases hx : k = x
      · subst hx
        simp
      · simp [hx]

theorem node_foldl_soil (keys : List D.Key) (g : Graph D) (k : D.Key) :
    (keys.foldl soil g).node k = if k ∈ keys then (g.node k).soil else g.node k := by
  induction keys generalizing g with
  | nil => simp
  | cons x rest ih =>
      rw [List.foldl_cons, ih, node_soil]
      by_cases hx : k = x
      · subst hx
        simp
      · simp [hx]

/-- A node after invalidation: struck if its key was named, then soiled if the walk met it. -/
theorem node_invalidate (g : Graph D) (keys : List D.Key) (k : D.Key) :
    (g.invalidate keys).1.node k =
      let n := if k ∈ keys then (g.node k).strike else g.node k
      if k ∈ (g.invalidate keys).2.dirtied then n.soil else n := by
  simp only [invalidate]
  rw [node_foldl_soil, node_foldl_strike]
  rfl

/-- Invalidation changes the status of a node at most. -/
theorem node_invalidate_eq (g : Graph D) (keys : List D.Key) (k : D.Key) :
    (g.invalidate keys).1.node k =
      { g.node k with status := ((g.invalidate keys).1.node k).status } := by
  rw [node_invalidate]
  simp only
  split
  · rw [Node.soil_eq]
    split
    · rw [Node.strike_eq]
    · rfl
  · split
    · rw [Node.strike_eq]
    · rfl

theorem Mirrored.invalidate {g : Graph D} (h : g.Mirrored) (keys : List D.Key) :
    (g.invalidate keys).1.Mirrored :=
  h.of_same_edges (fun k => by rw [node_invalidate_eq]) (fun k => by rw [node_invalidate_eq])

/-- A named key is new or has to be rebuilt. -/
theorem status_invalidate_of_mem {g : Graph D} {keys : List D.Key} {k : D.Key} (hk : k ∈ keys) :
    ((g.invalidate keys).1.node k).status = .new ∨
      ((g.invalidate keys).1.node k).status = .changed := by
  rw [node_invalidate]
  simp only [if_pos hk]
  rcases (g.node k).status_strike with h | h
  · split
    · rw [Node.status_soil, h]
      exact .inl rfl
    · exact .inl h
  · split
    · rw [Node.status_soil, h]
      exact .inr rfl
    · exact .inr h

/-- Complete after invalidation are the keys that were complete, were not named and were not met
by the walk. -/
theorem isComplete_invalidate {g : Graph D} {keys : List D.Key} {k : D.Key} :
    (g.invalidate keys).1.isComplete k = true ↔
      g.isComplete k = true ∧ k ∉ keys ∧ k ∉ (g.invalidate keys).2.dirtied := by
  by_cases hk : k ∈ keys
  · rcases status_invalidate_of_mem (g := g) hk with h | h
    · simp [isComplete, Node.isComplete, h, hk]
    · simp [isComplete, Node.isComplete, h, hk]
  · rw [isComplete, node_invalidate]
    simp only [if_neg hk]
    by_cases hd : k ∈ (g.invalidate keys).2.dirtied
    · rw [if_pos hd, Node.isComplete, Node.status_soil]
      simp only [hd, not_true_eq_false, and_false, iff_false, decide_eq_true_eq]
      split
      · simp
      · assumption
    · simp [hd, hk, isComplete]

/-- The status that invalidation leaves is the old one, or one that asks for work. -/
theorem status_invalidate (g : Graph D) (keys : List D.Key) (k : D.Key) :
    ((g.invalidate keys).1.node k).status = (g.node k).status ∨
      ((g.node k).status = .current ∧ ((g.invalidate keys).1.node k).status = .dirty) ∨
        ((g.node k).status ≠ .new ∧ ((g.invalidate keys).1.node k).status = .changed) := by
  rw [node_invalidate]
  unfold Node.strike Node.soil Node.isComplete Node.isDirty
  cases hs : (g.node k).status <;> simp only <;> split <;> split <;> simp_all

/-- Striking keys leaves the readers of all keys. -/
theorem readers_foldl_strike (keys : List D.Key) (g : Graph D) (d : D.Key) :
    (keys.foldl strike g).readers d = g.readers d := by
  rw [readers, readers, node_foldl_strike]
  split
  · rw [Node.strike_eq]
  · rfl

/-- The walk goes up to every complete reader of a key that lost its trust: a reader that is still
complete has no such dependency. -/
theorem Mirrored.isComplete_dep_invalidate {g : Graph D} (h : g.Mirrored) {keys : List D.Key}
    {k d : D.Key} (hd : d ∈ (g.node k).deps.keys)
    (hk : (g.invalidate keys).1.isComplete k = true) (hc : g.isComplete d = true) :
    (g.invalidate keys).1.isComplete d = true := by
  obtain ⟨hkc, hkn, hkd⟩ := isComplete_invalidate.mp hk
  let struck := keys.foldl Graph.strike g
  have hnode (x : D.Key) : struck.node x = if x ∈ keys then (g.node x).strike else g.node x :=
    node_foldl_strike keys g x
  have hread : k ∈ struck.readers d := by
    rw [readers_foldl_strike]
    exact (h k d).mp hd
  have htrusted : k ∈ struck.trusted := by
    have hcomplete : struck.isComplete k = true := by
      rw [isComplete, hnode, if_neg hkn]
      exact hkc
    exact List.mem_filter.mpr
      ⟨mem_keys_iff_contains.mpr (contains_of_isComplete hcomplete), hcomplete⟩
  refine isComplete_invalidate.mpr ⟨hc, fun hdn => hkd ?_, fun hdd => hkd ?_⟩
  · -- The dependency was named: its readers are where the walk starts.
    refine mem_reach_of_pending htrusted (List.mem_flatMap.mpr ⟨d, ?_, hread⟩)
    exact OrderedSet.mem_ofList.mpr (List.mem_filter.mpr ⟨hdn, hc⟩)
  · -- The walk met the dependency: it goes on to its readers.
    exact mem_reach_of_edge hdd hread htrusted

/-- A key that the walk dirtied reads something. -/
theorem Mirrored.exists_dep_of_dirtied {g : Graph D} (h : g.Mirrored) {keys : List D.Key}
    {k : D.Key} (hk : g.isComplete k = true)
    (hdirty : ((g.invalidate keys).1.node k).status = .dirty) :
    ∃ d, d ∈ (g.node k).deps.keys := by
  have hnamed : k ∉ keys := by
    intro hmem
    rcases status_invalidate_of_mem (g := g) hmem with hs | hs
    · exact Status.noConfusion (hs.symm.trans hdirty)
    · exact Status.noConfusion (hs.symm.trans hdirty)
  have hmet : k ∈ (g.invalidate keys).2.dirtied := by
    refine Decidable.byContradiction fun hmet => ?_
    have hc : (g.invalidate keys).1.isComplete k = true :=
      isComplete_invalidate.mpr ⟨hk, hnamed, hmet⟩
    simp [isComplete, Node.isComplete, hdirty] at hc
  have hread {d : D.Key} (hd : k ∈ (keys.foldl strike g).readers d) : d ∈ (g.node k).deps.keys := by
    rw [readers_foldl_strike] at hd
    exact (h k d).mpr hd
  cases mem_reach_iff.mp hmet with
  | seed _ hs =>
      obtain ⟨d, -, hd⟩ := List.mem_flatMap.mp hs
      exact ⟨d, hread hd⟩
  | edge _ hedge _ => exact ⟨_, hread hedge⟩

/-! ## Deletion -/

theorem node_erase (g : Graph D) (k k' : D.Key) :
    (⟨g.nodes.erase k⟩ : Graph D).node k' = if k' = k then Node.fresh else g.node k' := by
  simp only [node, get?, Table.get?_erase]
  split
  · rfl
  · rfl

@[simp] theorem contains_foldl_unlink (parent k : D.Key) (deps : List D.Key) (g : Graph D) :
    (deps.foldl (fun g dep => g.unlink parent dep) g).contains k = g.contains k := by
  induction deps generalizing g with
  | nil => rfl
  | cons dep rest ih => rw [List.foldl_cons, ih, unlink, contains_adjust]

theorem contains_remove {g : Graph D} {k k' : D.Key} :
    (g.remove k).contains k' = true ↔ g.contains k' = true ∧ k' ≠ k := by
  rw [remove, contains_foldl_unlink, contains, Table.contains, Table.get?_erase]
  by_cases h : k' = k
  · simp [h]
  · simp [h, contains, Table.contains]

theorem contains_foldl_remove {keys : List D.Key} {g : Graph D} {k : D.Key} :
    (keys.foldl remove g).contains k = true ↔ g.contains k = true ∧ k ∉ keys := by
  induction keys generalizing g with
  | nil => simp
  | cons x rest ih => rw [List.foldl_cons, ih, contains_remove, List.mem_cons, not_or, and_assoc]

theorem memo_remove (g : Graph D) (k k' : D.Key) :
    ((g.remove k).node k').memo = if k' = k then Node.fresh.memo else (g.node k').memo := by
  rw [remove, memo_foldl_unlink, node_erase]
  split
  · rfl
  · rfl

theorem mem_rdeps_remove {g : Graph D} {k d x : D.Key} :
    x ∈ ((g.remove k).node d).rdeps ↔
      d ≠ k ∧ x ∈ (g.node d).rdeps ∧ ¬ (d ∈ (g.node k).deps.keys ∧ x = k) := by
  rw [remove, mem_rdeps_foldl_unlink, node_erase]
  by_cases h : d = k
  · simp [h, Node.fresh]
  · simp [h]

theorem memo_foldl_remove (keys : List D.Key) (g : Graph D) (k : D.Key) :
    ((keys.foldl remove g).node k).memo =
      if k ∈ keys then Node.fresh.memo else (g.node k).memo := by
  induction keys generalizing g with
  | nil => simp
  | cons x rest ih =>
      rw [List.foldl_cons, ih, memo_remove]
      by_cases hx : k = x
      · simp [hx]
      · simp [hx]

/-- Removing keys takes them out of the reverse dependencies of the others.  It is enough that
every stored reader reads: a removed key may still be listed as a dependency. -/
theorem mem_rdeps_foldl_remove {keys : List D.Key} {g : Graph D}
    (h : ∀ x d, x ∈ (g.node d).rdeps → d ∈ (g.node x).deps.keys) {d x : D.Key} :
    x ∈ ((keys.foldl remove g).node d).rdeps ↔ d ∉ keys ∧ x ∈ (g.node d).rdeps ∧ x ∉ keys := by
  induction keys generalizing g with
  | nil => simp
  | cons k rest ih =>
      have hnext : ∀ x d, x ∈ ((g.remove k).node d).rdeps →
          d ∈ ((g.remove k).node x).deps.keys := by
        intro x d hx
        obtain ⟨-, hx, hne⟩ := mem_rdeps_remove.mp hx
        have hdep := h x d hx
        have hxk : x ≠ k := fun e => hne ⟨e ▸ hdep, e⟩
        have hmemo := memo_remove g k x
        rw [if_neg hxk] at hmemo
        rw [(Node.memo_eq_iff.mp hmemo).2.2.1]
        exact hdep
      rw [List.foldl_cons, ih hnext, mem_rdeps_remove, List.mem_cons, List.mem_cons]
      constructor
      · rintro ⟨hd, ⟨hdk, hx, hne⟩, hxr⟩
        have hxk : x ≠ k := fun e => hne ⟨e ▸ h x d hx, e⟩
        exact ⟨fun e => e.elim hdk hd, hx, fun e => e.elim hxk hxr⟩
      · rintro ⟨hd, hx, hxk⟩
        exact ⟨fun e => hd (.inr e), ⟨fun e => hd (.inl e), hx, fun e => hxk (.inl e.2)⟩,
          fun e => hxk (.inr e)⟩

theorem mem_closure_iff {g : Graph D} {p : D.Key → Bool} {k : D.Key} :
    k ∈ g.closure p ↔ Reached g.readers g.keys (g.keys.filter p) k :=
  mem_reach_iff

/-- What reads a removed key is removed as well. -/
theorem Mirrored.dep_not_mem_closure {g : Graph D} (h : g.Mirrored) {p : D.Key → Bool}
    {k d : D.Key} (hk : k ∉ g.closure p) (hd : d ∈ (g.node k).deps.keys) : d ∉ g.closure p := by
  intro hdc
  have hknown : k ∈ g.keys := mem_keys_iff_contains.mpr (h.contains_of_dep hd).1
  exact hk (mem_reach_of_edge hdc ((h k d).mp hd) hknown)

theorem memo_delete (g : Graph D) (p : D.Key → Bool) (k : D.Key) :
    ((g.delete p).1.node k).memo =
      if k ∈ g.closure p then Node.fresh.memo else (g.node k).memo :=
  memo_foldl_remove (g.closure p) g k

theorem Mirrored.delete {g : Graph D} (h : g.Mirrored) (p : D.Key → Bool) :
    (g.delete p).1.Mirrored := by
  intro k d
  have hdeps := (Node.memo_eq_iff (m := if k ∈ g.closure p then Node.fresh else g.node k)).mp
    ((memo_delete g p k).trans (by split <;> rfl))
  have hrdeps : k ∈ ((g.delete p).1.node d).rdeps ↔
      d ∉ g.closure p ∧ k ∈ (g.node d).rdeps ∧ k ∉ g.closure p :=
    mem_rdeps_foldl_remove fun x d hx => (h x d).mpr hx
  rw [hdeps.2.2.1, hrdeps]
  by_cases hk : k ∈ g.closure p
  · simp [hk, Node.fresh]
  · rw [if_neg hk]
    constructor
    · intro hd
      exact ⟨h.dep_not_mem_closure hk hd, (h k d).mp hd, hk⟩
    · intro hd
      exact (h k d).mpr hd.2.1

/-! ## What survives -/

/-- What is complete in the second graph was complete in the first one and stores what it stored,
and those of its dependencies that were complete still are. -/
structure Retains (g g' : Graph D) : Prop where
  /-- No key completes. -/
  complete : ∀ {k}, g'.isComplete k = true → g.isComplete k = true
  /-- Outcomes are kept. -/
  outcome : ∀ {k}, g'.isComplete k = true → (g'.node k).outcome = (g.node k).outcome
  /-- Dependencies are kept. -/
  deps : ∀ {k}, g'.isComplete k = true → (g'.node k).deps = (g.node k).deps
  /-- A key loses its trust with any of its dependencies. -/
  dep : ∀ {k d}, g'.isComplete k = true → d ∈ (g.node k).deps.keys → g.isComplete d = true →
    g'.isComplete d = true

theorem Mirrored.retains_invalidate {g : Graph D} (h : g.Mirrored) (keys : List D.Key) :
    g.Retains (g.invalidate keys).1 where
  complete hk := (isComplete_invalidate.mp hk).1
  outcome _ := by rw [node_invalidate_eq]
  deps _ := by rw [node_invalidate_eq]
  dep hk hd hc := h.isComplete_dep_invalidate hd hk hc

theorem Mirrored.retains_delete {g : Graph D} (h : g.Mirrored) (p : D.Key → Bool) :
    g.Retains (g.delete p).1 := by
  -- A key that is complete was not removed.
  have hkept {k : D.Key} (hk : (g.delete p).1.isComplete k = true) : k ∉ g.closure p := by
    intro hc
    have hmemo := memo_delete g p k
    rw [if_pos hc] at hmemo
    rw [isComplete, Node.isComplete_of_memo_eq hmemo] at hk
    cases hk
  have hmemo {k : D.Key} (hk : k ∉ g.closure p) :
      ((g.delete p).1.node k).memo = (g.node k).memo := by
    rw [memo_delete, if_neg hk]
  have hcomplete {k : D.Key} (hk : k ∉ g.closure p) :
      (g.delete p).1.isComplete k = g.isComplete k :=
    Node.isComplete_of_memo_eq (hmemo hk)
  constructor
  · exact fun hk => (hcomplete (hkept hk)).symm.trans hk
  · exact fun hk => (Node.memo_eq_iff.mp (hmemo (hkept hk))).2.1
  · exact fun hk => (Node.memo_eq_iff.mp (hmemo (hkept hk))).2.2.1
  · exact fun hk hd hc => (hcomplete (h.dep_not_mem_closure (hkept hk) hd)).trans hc

end Graph

end MemoGraph
