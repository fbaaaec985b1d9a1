import MemoGraph.Crew.Run
import MemoGraph.Proofs.Graph.Edges

/-!
# Entries and the graph below them

An entry shows its node to others, and it has a node *below* it: what is left if the round ends now
and the evaluation is taken back.  A key that comes under evaluation, and everything a round notes
for it, leaves the node below as it was; only publishing, confirming and the two directions of edges
change it.  This module follows both through the operations on entries, and through the store.
-/

set_option autoImplicit false

namespace MemoGraph

variable {D : Domain}

namespace Table

variable {K V W : Type} [DecidableEq K]

theorem get?_map (f : V → W) (t : Table K V) (k : K) : (t.map f).get? k = (t.get? k).map f := by
  simp only [get?, map, List.find?_map, Option.map_map]
  rfl

theorem contains_map (f : V → W) (t : Table K V) (k : K) :
    (t.map f).contains k = t.contains k := by
  rw [contains, get?_map, Option.isSome_map, contains]

end Table

namespace Entry

/-- The node below an entry: what is left if the evaluation is taken back. -/
def base (e : Entry D) : Node D := e.abandon.node

/-- A key is under evaluation exactly if the round keeps something for it, and only keys that were
not complete come under evaluation. -/
def Sound (e : Entry D) : Prop :=
  match e.phase, e.building with
  | .resting _, none => True
  | .evaluating, some b => b.prior ≠ .current
  | _, _ => False

variable {e : Entry D}

theorem Sound.cases (h : e.Sound) :
    (∃ status, e.phase = .resting status ∧ e.building = none) ∨
      ∃ b, e.phase = .evaluating ∧ e.building = some b ∧ b.prior ≠ .current := by
  unfold Sound at h
  split at h
  · rename_i status hphase hb
    exact .inl ⟨status, hphase, hb⟩
  · rename_i b hphase hb
    exact .inr ⟨b, hphase, hb, h⟩
  · exact h.elim

theorem sound_of_resting {status : Status} (hphase : e.phase = .resting status)
    (hb : e.building = none) : e.Sound := by
  rw [Sound, hphase, hb]
  trivial

theorem sound_of_building {b : Building D} (hphase : e.phase = .evaluating)
    (hb : e.building = some b) (hprior : b.prior ≠ .current) : e.Sound := by
  rw [Sound, hphase, hb]
  exact hprior

theorem sound_ofNode (n : Node D) : (ofNode n).Sound := sound_of_resting rfl rfl

@[simp] theorem base_ofNode (n : Node D) : (ofNode n).base = n := rfl

/-- Nothing but the status of an entry differs from the node below. -/
theorem base_eq (e : Entry D) : e.base = { e.node with status := e.base.status } := by
  unfold base abandon
  cases e.building with
  | none => rfl
  | some b => rfl

theorem base_of_resting (hb : e.building = none) : e.base = e.node := by
  rw [base, abandon, hb]

theorem status_base {b : Building D} (hb : e.building = some b) : e.base.status = b.prior := by
  rw [base, abandon, hb]
  rfl

/-- The node below a key under evaluation is not complete. -/
theorem Sound.incomplete (h : e.Sound) {b : Building D} (hb : e.building = some b) :
    e.base.isComplete = false := by
  rcases h.cases with ⟨-, -, hnone⟩ | ⟨b', -, hb', hprior⟩
  · rw [hnone] at hb
    cases hb
  · rw [Node.isComplete, status_base hb', decide_eq_false hprior]

/-- Others see the same outcome as there is below. -/
theorem Sound.settled (h : e.Sound) : e.node.settled? = e.base.settled? := by
  rcases h.cases with ⟨-, -, hb⟩ | ⟨b, hphase, hb, hprior⟩
  · rw [base_of_resting hb]
  · have hbase := h.incomplete hb
    have hnode : e.node.isComplete = false := by
      rw [Node.isComplete, node, status, hphase]
      rfl
    rw [Node.settled?, Node.settled?, hbase, hnode]
    rfl

/-! ## Operations on entries -/

@[simp] theorem base_publish (e : Entry D) (o : Outcome D) (version : Version) :
    (e.publish o version).base = e.base.publish o version := by
  rw [publish, base_ofNode, base_eq e]
  rfl

@[simp] theorem base_confirm (e : Entry D) (version : Version) :
    (e.confirm version).base = e.base.confirm version := by
  rw [confirm, base_ofNode, base_eq e]
  rfl

@[simp] theorem base_deps (e : Entry D) (deps : DepGroups D.Key) :
    ({ e with deps := deps } : Entry D).base = { e.base with deps := deps } := by
  unfold base abandon
  cases e.building with
  | none => rfl
  | some b => rfl

@[simp] theorem base_retask (e : Entry D) (f : Task D → Task D) : (e.retask f).base = e.base := by
  unfold base abandon retask
  cases e.building with
  | none => rfl
  | some b => rfl

@[simp] theorem building_retask (e : Entry D) (f : Task D → Task D) :
    (e.retask f).building = e.building.map fun b => { b with task := f b.task } := rfl

theorem Sound.retask (h : e.Sound) (f : Task D → Task D) : (e.retask f).Sound := by
  rcases h.cases with ⟨status, hphase, hb⟩ | ⟨b, hphase, hb, hprior⟩
  · have hphase' : (e.retask f).phase = .resting status := hphase
    exact sound_of_resting hphase' (by rw [building_retask, hb]; rfl)
  · exact sound_of_building (b := { b with task := f b.task }) hphase
      (by rw [building_retask, hb]; rfl) hprior

/-- A key that does not begin stays as it is; one that does was at rest and not complete. -/
theorem begin_cases (e : Entry D) :
    (e.begins = false ∧ e.begin = e) ∨
      ∃ status, e.begins = true ∧ status ≠ .current ∧ e.phase = .resting status ∧
        e.begin = { e with phase := .evaluating, building := some ⟨status, .start status⟩ } := by
  unfold begins begin
  split
  · rename_i status hphase
    by_cases hs : status = .current
    · simp [hs]
    · exact .inr ⟨status, by simpa using hs, hs, hphase, by simp [hs]⟩
  · exact .inl ⟨rfl, rfl⟩

@[simp] theorem Sound.base_begin (h : e.Sound) : e.begin.base = e.base := by
  rcases begin_cases e with ⟨-, hb⟩ | ⟨status, -, -, hphase, hb⟩
  · rw [hb]
  · rcases h.cases with ⟨status', hphase', hnone⟩ | ⟨-, hphase', -, -⟩
    · rw [hb, base_of_resting hnone, base, abandon, node, node, Entry.status, Entry.status, hphase]
    · rw [hphase] at hphase'
      cases hphase'

theorem Sound.begin (h : e.Sound) : e.begin.Sound := by
  rcases begin_cases e with ⟨-, hb⟩ | ⟨status, -, hs, -, hb⟩
  · rw [hb]
    exact h
  · rw [hb]
    exact sound_of_building rfl rfl hs

/-- Waiting changes at most the waiters. -/
theorem await_cases (e : Entry D) (reader : D.Key) :
    (e.await reader).2 = e ∨
      (e.await reader).2 = e.retask fun t => { t with waiters := t.waiters.insert reader } := by
  unfold await
  split
  · exact .inl rfl
  · split
    · exact .inl rfl
    · exact .inr rfl

@[simp] theorem base_await (e : Entry D) (reader : D.Key) : (e.await reader).2.base = e.base := by
  rcases await_cases e reader with h | h
  · rw [h]
  · rw [h, base_retask]

theorem Sound.await (h : e.Sound) (reader : D.Key) : (e.await reader).2.Sound := by
  rcases await_cases e reader with hb | hb
  · rw [hb]
    exact h
  · rw [hb]
    exact h.retask _

/-- Nothing of the round is left once an evaluation was taken back. -/
@[simp] theorem building_abandon (e : Entry D) : e.abandon.building = none := by
  unfold abandon
  split
  · rfl
  · assumption

theorem Sound.phase_abandon (h : e.Sound) : e.abandon.phase ≠ .evaluating := by
  rcases h.cases with ⟨status, hphase, hb⟩ | ⟨b, -, hb, -⟩
  · rw [Entry.abandon, hb, hphase]
    simp
  · rw [Entry.abandon, hb]
    simp

theorem abandon_of_none (hb : e.building = none) : e.abandon = e := by
  rw [abandon, hb]

end Entry

/-! ## Stores -/

namespace Store

variable {st : Store D}

theorem entry_put (st : Store D) (k x : D.Key) (e : Entry D) :
    (st.put k e).entry x = if x = k then e else st.entry x := by
  unfold entry put
  rw [Table.get?_insert]
  split
  · rfl
  · rfl

theorem entry_update (st : Store D) (k x : D.Key) (f : Entry D → Entry D) :
    (st.update k f).entry x = if x = k then f (st.entry k) else st.entry x :=
  entry_put st k x _

theorem contains_put (st : Store D) (k x : D.Key) (e : Entry D) :
    (st.put k e).contains x = (decide (x = k) || st.contains x) := by
  refine Bool.eq_iff_iff.mpr (Table.contains_insert.trans ?_)
  rw [Bool.or_eq_true, decide_eq_true_eq]
  rfl

theorem entry_of_not_contains {k : D.Key} (h : st.contains k = false) : st.entry k = .fresh := by
  have hnone : st.entries.get? k = none := by simpa [contains, Table.contains] using h
  rw [entry, hnone]
  rfl

@[simp] theorem entry_create (st : Store D) (k x : D.Key) : (st.create k).entry x = st.entry x := by
  unfold create
  split
  · rfl
  · rename_i h
    rw [entry_put]
    split
    · rename_i hx
      rw [hx, entry_of_not_contains (by simpa using h)]
    · rfl

theorem entry_adjust (st : Store D) (k x : D.Key) (f : Entry D → Entry D) :
    (st.adjust k f).entry x =
      if x = k ∧ st.contains k = true then f (st.entry k) else st.entry x := by
  unfold adjust
  by_cases h : st.contains k = true
  · simp [h, entry_update]
  · simp [h]

/-- A change that leaves fresh entries alone reaches every key. -/
theorem entry_adjust_of_fresh {f : Entry D → Entry D} (hf : f .fresh = .fresh) (st : Store D)
    (k x : D.Key) : (st.adjust k f).entry x = if x = k then f (st.entry k) else st.entry x := by
  rw [entry_adjust]
  by_cases hx : x = k
  · cases hc : st.contains k with
    | true => simp
    | false => simp [hx, entry_of_not_contains hc, hf]
  · simp [hx]

theorem entry_ofGraph (g : Graph D) (k : D.Key) : (ofGraph g).entry k = .ofNode (g.node k) := by
  rw [entry, ofGraph, Table.get?_map, Graph.node, Graph.get?]
  cases g.nodes.get? k with
  | none => rfl
  | some n => rfl

theorem node_graph (st : Store D) (k : D.Key) : st.graph.node k = (st.entry k).node := by
  rw [entry, Graph.node, Graph.get?, graph, Table.get?_map]
  cases st.entries.get? k with
  | none => rfl
  | some e => rfl

theorem contains_graph (st : Store D) (k : D.Key) : st.graph.contains k = st.contains k :=
  Table.contains_map _ _ _

theorem contains_ofGraph (g : Graph D) (k : D.Key) : (ofGraph g).contains k = g.contains k :=
  Table.contains_map _ _ _

/-- Taking evaluations back reaches exactly the given keys. -/
theorem entry_abandonAll (st : Store D) (keys : List D.Key) (k : D.Key) :
    (st.abandonAll keys).entry k = if k ∈ keys then (st.entry k).abandon else st.entry k := by
  unfold abandonAll
  induction keys generalizing st with
  | nil => simp
  | cons x rest ih =>
      rw [List.foldl_cons, ih, entry_adjust_of_fresh rfl]
      by_cases hk : k = x
      · subst hk
        simp [Entry.abandon_of_none (Entry.building_abandon _)]
      · simp [hk]

theorem contains_adjust (st : Store D) (k x : D.Key) (f : Entry D → Entry D) :
    (st.adjust k f).contains x = st.contains x := by
  unfold adjust
  by_cases h : st.contains k = true
  · rw [if_pos h, update, contains_put]
    by_cases hx : x = k
    · simp [hx, h]
    · simp [hx]
  · rw [if_neg h]

theorem contains_create {st : Store D} {x : D.Key} (h : st.contains x = true) (k : D.Key) :
    (st.create k).contains x = true := by
  unfold create
  split
  · exact h
  · rw [contains_put, h, Bool.or_true]

theorem contains_abandonAll (st : Store D) (keys : List D.Key) (k : D.Key) :
    (st.abandonAll keys).contains k = st.contains k := by
  unfold abandonAll
  induction keys generalizing st with
  | nil => rfl
  | cons x rest ih => rw [List.foldl_cons, ih, contains_adjust]

/-- The tasks of a store are in its entries. -/
theorem get?_tasks (st : Store D) (k : D.Key) : st.tasks.get? k = (st.entry k).task? := by
  refine Option.ext fun t => ?_
  rw [Table.get?_eq_some_iff]
  simp only [tasks, List.mem_filterMap, Option.map_eq_some_iff, Prod.mk.injEq]
  constructor
  · rintro ⟨⟨x, e⟩, he, t', ht', rfl, rfl⟩
    rw [entry, Table.get?_eq_some_iff.mpr he]
    exact ht'
  · intro ht
    cases he : st.entries.get? k with
    | none =>
        rw [entry, he] at ht
        cases ht
    | some e =>
        rw [entry, he] at ht
        exact ⟨(k, e), Table.get?_eq_some_iff.mp he, t, ht, rfl, rfl⟩

/-! ### Keys in order -/

/-- The known keys in the order in which they first arrived. -/
def keys (st : Store D) : List D.Key := st.entries.keys

theorem mem_keys_iff_contains {k : D.Key} : k ∈ st.keys ↔ st.contains k = true :=
  Table.contains_iff_mem_keys.symm

@[simp] theorem keys_ofGraph (g : Graph D) : (ofGraph g).keys = g.keys := by
  simp [keys, ofGraph, Graph.keys, Table.keys, Table.map]

@[simp] theorem keys_graph (st : Store D) : st.graph.keys = st.keys := by
  simp [keys, graph, Graph.keys, Table.keys, Table.map]

theorem keys_put (st : Store D) (k : D.Key) (e : Entry D) :
    (st.put k e).keys = if k ∈ st.keys then st.keys else st.keys ++ [k] :=
  Table.keys_insert _ _ _

theorem keys_create (st : Store D) (k : D.Key) :
    (st.create k).keys = if k ∈ st.keys then st.keys else st.keys ++ [k] := by
  unfold create
  by_cases hk : st.contains k = true
  · rw [if_pos hk, if_pos (mem_keys_iff_contains.mpr hk)]
  · rw [if_neg hk, keys_put]

theorem mem_keys_create (st : Store D) (k : D.Key) : k ∈ (st.create k).keys := by
  rw [keys_create]
  split
  · assumption
  · exact List.mem_append_right _ List.mem_cons_self

@[simp] theorem keys_adjust (st : Store D) (k : D.Key) (f : Entry D → Entry D) :
    (st.adjust k f).keys = st.keys := by
  unfold adjust
  split
  · rename_i hk
    exact (keys_put _ _ _).trans (if_pos (mem_keys_iff_contains.mpr hk))
  · rfl

@[simp] theorem keys_abandonAll (st : Store D) (keys : List D.Key) :
    (st.abandonAll keys).keys = st.keys := by
  unfold abandonAll
  induction keys generalizing st with
  | nil => rfl
  | cons k rest ih => rw [List.foldl_cons, ih, keys_adjust]

/-- Putting back the entry of a known key changes nothing. -/
theorem put_entry {k : D.Key} (h : k ∈ st.keys) : st.put k (st.entry k) = st := by
  obtain ⟨e, he⟩ := Table.mem_keys_iff.mp h
  have hentry : st.entry k = e := by
    rw [entry, he]
    rfl
  have hentries : st.entries.insert k e = st.entries := by
    refine Table.eq_of_get? ((Table.keys_insert _ _ _).trans (if_pos h)) fun x => ?_
    rw [Table.get?_insert]
    split
    · rename_i hx
      rw [hx, he]
    · rfl
  rw [hentry, put, hentries]

end Store

namespace Live

/-- The graph below the entries: what is left if the round ends now. -/
def graph (l : Live D) : Graph D := ⟨l.store.entries.map Entry.base⟩

@[simp] theorem node_graph (l : Live D) (k : D.Key) : l.graph.node k = (l.entry k).base := by
  rw [entry, Store.entry, Graph.node, Graph.get?, graph, Table.get?_map]
  cases l.store.entries.get? k with
  | none => rfl
  | some e => rfl

@[simp] theorem deps_graph (l : Live D) (k : D.Key) :
    (l.graph.node k).deps = (l.entry k).deps := by
  rw [node_graph, Entry.base_eq]
  rfl

@[simp] theorem rdeps_graph (l : Live D) (k : D.Key) :
    (l.graph.node k).rdeps = (l.entry k).rdeps := by
  rw [node_graph, Entry.base_eq]
  rfl

@[simp] theorem changedAt_graph (l : Live D) (k : D.Key) :
    (l.graph.node k).changedAt = (l.entry k).changedAt := by
  rw [node_graph, Entry.base_eq]
  rfl

@[simp] theorem evaluatedAt_graph (l : Live D) (k : D.Key) :
    (l.graph.node k).evaluatedAt = (l.entry k).evaluatedAt := by
  rw [node_graph, Entry.base_eq]
  rfl

theorem isComplete_graph (l : Live D) (k : D.Key) :
    l.graph.isComplete k = (l.entry k).base.isComplete := by
  rw [Graph.isComplete, node_graph]

theorem entry_put (l : Live D) (k x : D.Key) (e : Entry D) :
    (l.put k e).entry x = if x = k then e else l.entry x :=
  Store.entry_put l.store k x e

@[simp] theorem entry_put_self (l : Live D) (k : D.Key) (e : Entry D) :
    (l.put k e).entry k = e := by
  rw [entry_put, if_pos rfl]

end Live

end MemoGraph
