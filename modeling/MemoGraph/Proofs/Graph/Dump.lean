import Mathlib.Data.String.Basic
import MemoGraph.Graph.Dump
import MemoGraph.Proofs.Graph.Edges
import MemoGraph.Proofs.Text.Quoted
import MemoGraph.Script.Domain

/-!
# Dumps are canonical

A graph may hold its nodes, and a node its readers, in any order: a dump shows both in the order of
the text of the keys.  As long as no two keys have the same text, that order is strict, so the dump
is determined by what the graph holds.  The keys of scripted computations have different texts
because different names are quoted differently.
-/

set_option autoImplicit false

namespace MemoGraph

/-! ## Keys in the order of their texts -/

section Sorting

variable {K : Type} [Inspect K]

/-- The text of one key comes before that of another. -/
def Precedes (a b : K) : Prop := inspect a < inspect b

theorem perm_sortKeys (keys : List K) : (sortKeys keys).Perm keys := List.mergeSort_perm _ _

theorem pairwise_le_sortKeys (keys : List K) :
    (sortKeys keys).Pairwise fun a b => inspect a ≤ inspect b := by
  have hsorted : (sortKeys keys).Pairwise fun a b => decide (inspect a ≤ inspect b) = true := by
    refine List.pairwise_mergeSort (fun a b c hab hbc => ?_) (fun a b => ?_) keys
    · exact decide_eq_true ((of_decide_eq_true hab).trans (of_decide_eq_true hbc))
    · simpa using le_total (inspect a) (inspect b)
  exact hsorted.imp of_decide_eq_true

variable (hinj : Function.Injective (inspect : K → String))

include hinj

/-- Different keys with different texts are in strict order. -/
theorem pairwise_sortKeys {keys : List K} (h : keys.Nodup) :
    (sortKeys keys).Pairwise Precedes := by
  have hne : (sortKeys keys).Pairwise (· ≠ ·) := (perm_sortKeys keys).nodup_iff.mpr h
  exact ((pairwise_le_sortKeys keys).and hne).imp fun hab =>
    lt_of_le_of_ne hab.1 fun he => hab.2 (hinj he)

/-- The order in which keys are given does not matter if their texts differ. -/
theorem sortKeys_congr {keys keys' : List K} (h : keys.Perm keys') :
    sortKeys keys = sortKeys keys' := by
  refine List.Perm.eq_of_pairwise ?_ (pairwise_le_sortKeys keys) (pairwise_le_sortKeys keys') ?_
  · exact fun a b _ _ hab hba => hinj (le_antisymm hab hba)
  · exact (perm_sortKeys keys).trans (h.trans (perm_sortKeys keys').symm)

end Sorting

variable {D : Domain}

namespace Graph

/-- The second graph holds what the first one holds, its nodes and the readers of each node in any
order. -/
structure Rearranged (g g' : Graph D) : Prop where
  /-- The same keys have nodes. -/
  keys : g.keys.Perm g'.keys
  /-- Readers aside, the nodes are the same. -/
  memo : ∀ k, (g.node k).memo = (g'.node k).memo
  /-- Every key has the same readers. -/
  rdeps : ∀ k, (g.node k).rdeps.toList.Perm (g'.node k).rdeps.toList

variable [Inspect D.Key] {g g' : Graph D}

/-! ## What a dump lists -/

theorem map_key_dump (g : Graph D) : g.dump.map DumpRow.key = sortKeys g.keys := by
  rw [dump, List.map_map]
  exact List.map_id _

theorem eq_dumpRow_of_mem_dump {row : DumpRow D} (h : row ∈ g.dump) : row = g.dumpRow row.key := by
  obtain ⟨k, -, rfl⟩ := List.mem_map.mp h
  rfl

/-- Every node is listed once. -/
theorem count_map_key_dump (g : Graph D) (k : D.Key) :
    (g.dump.map DumpRow.key).count k = if g.contains k then 1 else 0 := by
  rw [map_key_dump, (perm_sortKeys g.keys).count_eq k, keys, g.nodes.keys_nodup.count]
  simp only [contains, Table.contains_iff_mem_keys]

/-- Every reader is listed once. -/
theorem count_rdeps_dumpRow (g : Graph D) (k x : D.Key) :
    (g.dumpRow k).rdeps.count x = if x ∈ (g.node k).rdeps then 1 else 0 := by
  have hperm := perm_sortKeys (g.node k).rdeps.toList
  exact (hperm.count_eq x).trans (g.node k).rdeps.nodup.count

/-- Every dependency is listed once. -/
theorem count_deps_dumpRow (g : Graph D) (k d : D.Key) :
    (g.dumpRow k).deps.flatten.count d = if d ∈ (g.node k).deps.keys then 1 else 0 :=
  (g.node k).deps.nodup.count

variable (hinj : Function.Injective (inspect : D.Key → String))

include hinj

theorem Rearranged.dumpRow_eq (h : g.Rearranged g') (k : D.Key) : g.dumpRow k = g'.dumpRow k := by
  have hsame {α : Type} (view : Node D → α) (hview : ∀ n, view n = view n.memo) :
      view (g.node k) = view (g'.node k) := by
    rw [hview, h.memo k, ← hview]
  simp only [dumpRow, DumpRow.mk.injEq, true_and]
  exact ⟨hsame Node.state fun _ => rfl, hsame Node.changedAt fun _ => rfl,
    hsame Node.evaluatedAt fun _ => rfl, hsame (fun n => n.deps.groups) fun _ => rfl,
    sortKeys_congr hinj (h.rdeps k), hsame Node.lastValue? fun _ => rfl,
    hsame Node.lastFailure? fun _ => rfl⟩

/-- A dump does not show in which order the graph holds what it holds. -/
theorem Rearranged.dump_eq (h : g.Rearranged g') : g.dump = g'.dump := by
  rw [dump, dump, sortKeys_congr hinj h.keys]
  exact List.map_congr_left fun k _ => h.dumpRow_eq hinj k

end Graph

/-! ## The keys of scripted computations -/

namespace Script

/-- A constructor with one text as its argument reads as its name and, in parentheses, the text in
quotes. -/
theorem render_call_text (name content : String) :
    (Term.call name [.text content]).render = name ++ "(" ++ Text.quote content ++ ")" := by
  simp [Term.render, Term.renderAll, Term.commaSeparated]

theorem render_call_text_inj {name content content' : String}
    (h : (Term.call name [.text content]).render = (Term.call name [.text content']).render) :
    content = content' := by
  rw [render_call_text, render_call_text, String.append_left_inj, String.append_right_inj] at h
  exact Text.quote_injective h

theorem render_node_ne_input (content content' : String) :
    (Term.call "Node" [.text content]).render ≠ (Term.call "Input" [.text content']).render := by
  intro h
  have hfirst := congrArg (fun text : String => text.toList.head?) h
  simp [render_call_text] at hfirst

/-- Different keys have different texts. -/
theorem inspect_injective : Function.Injective (inspect : Key → String) := by
  intro a b h
  cases a with
  | node name =>
      cases b with
      | node name' => exact congrArg Key.node (render_call_text_inj h)
      | input name' => exact absurd h (render_node_ne_input name name')
  | input name =>
      cases b with
      | node name' => exact absurd h.symm (render_node_ne_input name' name)
      | input name' => exact congrArg Key.input (render_call_text_inj h)

/-- Dumps are canonical.  Different keys have different texts, and two graphs that hold the same, in
whatever order they hold their nodes and the readers of each node, have the same dump.  It lists
every node once, in the strict order of the texts of the keys, and in the row of each node every
dependency once and every reader once, the readers in that same order. -/
theorem dump_canonical :
    (∀ a b : Key, inspect a = inspect b → a = b) ∧
      ∀ g g' : Graph domain, g.Rearranged g' →
        g.dump = g'.dump ∧
        (g.dump.map DumpRow.key).Pairwise Precedes ∧
        (∀ k, (g.dump.map DumpRow.key).count k = if g.contains k then 1 else 0) ∧
        ∀ row ∈ g.dump,
          row.rdeps.Pairwise Precedes ∧
          (∀ x, row.rdeps.count x = if x ∈ (g.node row.key).rdeps then 1 else 0) ∧
          ∀ d, row.deps.flatten.count d = if d ∈ (g.node row.key).deps.keys then 1 else 0 := by
  refine ⟨fun a b h => inspect_injective h, fun g g' h => ⟨?_, ?_, ?_, fun row hrow => ?_⟩⟩
  · exact h.dump_eq inspect_injective
  · rw [Graph.map_key_dump g]
    exact pairwise_sortKeys inspect_injective g.nodes.keys_nodup
  · exact g.count_map_key_dump
  · rw [Graph.eq_dumpRow_of_mem_dump hrow]
    exact ⟨pairwise_sortKeys inspect_injective (g.node row.key).rdeps.nodup,
      g.count_rdeps_dumpRow row.key, g.count_deps_dumpRow row.key⟩

/-- Two nodes that read one input, met in either order. -/
theorem dump_canonical_of_two_readers :
    let x : Key := .input "x"
    let a : Key := .node "a"
    let b : Key := .node "b"
    let reader : Node domain := { Node.fresh with deps := .ofBatches [[x]] }
    let read (readers : List Key) : Node domain := { Node.fresh with rdeps := .ofList readers }
    let g := (((∅ : Graph domain).put x (read [a, b])).put a reader).put b reader
    let g' := (((∅ : Graph domain).put b reader).put a reader).put x (read [b, a])
    g.keys ≠ g'.keys ∧ (g.node x).rdeps ≠ (g'.node x).rdeps ∧ g.Rearranged g' ∧
      g.dump = g'.dump ∧ ∀ row ∈ g.dump, row.rdeps.Pairwise Precedes := by
  intro x a b reader read g g'
  have hkeys : g.keys = [x, a, b] ∧ g'.keys = [b, a, x] := ⟨by decide, by decide⟩
  have hnode (k : Key) : g.node k =
      if k = b then reader else if k = a then reader else
        if k = x then read [a, b] else .fresh := by
    simp only [g, Graph.node_put]
    rfl
  have hnode' (k : Key) : g'.node k =
      if k = x then read [b, a] else if k = a then reader else
        if k = b then reader else .fresh := by
    simp only [g', Graph.node_put]
    rfl
  have hsame (k : Key) : (g.node k).memo = (g'.node k).memo ∧
      (g.node k).rdeps.toList.Perm (g'.node k).rdeps.toList := by
    rw [hnode, hnode']
    by_cases hx : k = x
    · subst hx
      exact ⟨rfl, by decide⟩
    · by_cases ha : k = a
      · subst ha
        exact ⟨rfl, .refl _⟩
      · simp [hx, ha]
  have hrearranged : g.Rearranged g' :=
    ⟨by rw [hkeys.1, hkeys.2]; decide, fun k => (hsame k).1, fun k => (hsame k).2⟩
  obtain ⟨hdump, -, -, hrows⟩ := dump_canonical.2 g g' hrearranged
  exact ⟨by rw [hkeys.1, hkeys.2]; decide, by decide, hrearranged, hdump,
    fun row hrow => (hrows row hrow).1⟩

end Script

end MemoGraph
