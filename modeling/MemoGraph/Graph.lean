import MemoGraph.Node
import MemoGraph.Table

/-!
# The graph store

A `Graph` holds a node for every key it has met.  It is read through `node`, which shows a fresh
node for an unknown key, and `contains`.  Recording dependencies keeps both directions of every
edge in step: a key is among the dependencies of another exactly if that one is among its reverse
dependencies.
-/

set_option autoImplicit false

namespace MemoGraph

variable {D : Domain}

/-- Every node known to a session. -/
structure Graph (D : Domain) where
  /-- The nodes in the order in which their keys first arrived. -/
  nodes : Table D.Key (Node D)

namespace Graph

/-- The graph without nodes. -/
def empty : Graph D := ⟨∅⟩

instance : EmptyCollection (Graph D) := ⟨empty⟩

instance : Inhabited (Graph D) := ⟨empty⟩

/-- The known keys. -/
def keys (g : Graph D) : List D.Key := g.nodes.keys

/-- The node of a key, if there is one. -/
def get? (g : Graph D) (k : D.Key) : Option (Node D) := g.nodes.get? k

/-- The node of a key, fresh for an unknown key. -/
def node (g : Graph D) (k : D.Key) : Node D := (g.get? k).getD Node.fresh

/-- Whether a key has a node. -/
def contains (g : Graph D) (k : D.Key) : Bool := g.nodes.contains k

/-- Whether a key has a node that can be read as it is. -/
def isComplete (g : Graph D) (k : D.Key) : Bool := (g.node k).isComplete

/-- Replace the node of a key, creating it if there is none. -/
def put (g : Graph D) (k : D.Key) (n : Node D) : Graph D := ⟨g.nodes.insert k n⟩

/-- Change the node of a key, creating it if there is none. -/
def update (g : Graph D) (k : D.Key) (f : Node D → Node D) : Graph D := g.put k (f (g.node k))

/-- Change the node of a known key; an unknown key stays unknown. -/
def adjust (g : Graph D) (k : D.Key) (f : Node D → Node D) : Graph D :=
  if g.contains k then g.update k f else g

/-- Make sure that a key has a node. -/
def create (g : Graph D) (k : D.Key) : Graph D := if g.contains k then g else g.put k Node.fresh

theorem get?_put (g : Graph D) (k k' : D.Key) (n : Node D) :
    (g.put k n).get? k' = if k' = k then some n else g.get? k' := by
  simp [put, get?, Table.get?_insert]

theorem node_put (g : Graph D) (k k' : D.Key) (n : Node D) :
    (g.put k n).node k' = if k' = k then n else g.node k' := by
  unfold node
  rw [get?_put]
  split
  · rfl
  · rfl

theorem node_update (g : Graph D) (k k' : D.Key) (f : Node D → Node D) :
    (g.update k f).node k' = if k' = k then f (g.node k) else g.node k' :=
  node_put g k k' _

theorem contains_put (g : Graph D) (k k' : D.Key) (n : Node D) :
    (g.put k n).contains k' = (decide (k' = k) || g.contains k') := by
  by_cases h : k' = k
  · simp [contains, put, Table.contains, h]
  · simp [contains, put, Table.contains, Table.get?_insert, h]

theorem contains_update (g : Graph D) (k k' : D.Key) (f : Node D → Node D) :
    (g.update k f).contains k' = (decide (k' = k) || g.contains k') :=
  contains_put g k k' _

theorem node_adjust (g : Graph D) (k k' : D.Key) (f : Node D → Node D) :
    (g.adjust k f).node k' = if k' = k ∧ g.contains k = true then f (g.node k) else g.node k' := by
  unfold adjust
  by_cases h : g.contains k = true
  · simp [h, node_update]
  · simp [h]

@[simp] theorem contains_adjust (g : Graph D) (k k' : D.Key) (f : Node D → Node D) :
    (g.adjust k f).contains k' = g.contains k' := by
  unfold adjust
  by_cases h : g.contains k = true
  · rw [if_pos h, contains_update]
    by_cases hk : k' = k
    · simp [hk, h]
    · simp [hk]
  · rw [if_neg h]

theorem contains_create (g : Graph D) (k k' : D.Key) :
    (g.create k).contains k' = (decide (k' = k) || g.contains k') := by
  unfold create
  by_cases h : g.contains k = true
  · by_cases hk : k' = k
    · simp [h, hk]
    · simp [h, hk]
  · rw [if_neg h, contains_put]

theorem node_of_not_contains {g : Graph D} {k : D.Key} (h : g.contains k = false) :
    g.node k = Node.fresh := by
  have h' : g.get? k = none := by simpa [contains, Table.contains, get?] using h
  simp [node, h']

/-- Creating a node shows nothing that was not shown before. -/
@[simp] theorem node_create (g : Graph D) (k k' : D.Key) : (g.create k).node k' = g.node k' := by
  unfold create
  by_cases h : g.contains k = true
  · rw [if_pos h]
  · rw [if_neg h, node_put]
    split
    · rename_i hk
      rw [hk, node_of_not_contains (by simpa using h)]
    · rfl

/-! ## Edges -/

/-- Note that `parent` reads `dep`. -/
def link (g : Graph D) (parent dep : D.Key) : Graph D :=
  g.update dep fun n => { n with rdeps := n.rdeps.insert parent }

/-- Forget that `parent` reads `dep`. -/
def unlink (g : Graph D) (parent dep : D.Key) : Graph D :=
  g.adjust dep fun n => { n with rdeps := n.rdeps.erase parent }

/-- Replace the dependencies of a key and adjust the reverse dependencies of those it stops or
starts reading. -/
def setDeps (g : Graph D) (k : D.Key) (deps : DepGroups D.Key) : Graph D :=
  let dropped := (g.node k).deps.keys.filter fun dep => !deps.contains dep
  let g := g.update k fun n => { n with deps := deps }
  let g := dropped.foldl (fun g dep => g.unlink k dep) g
  deps.keys.foldl (fun g dep => g.link k dep) g

/-- Forget the dependencies of a key. -/
def clearDeps (g : Graph D) (k : D.Key) : Graph D := g.setDeps k ∅

/-! ## Outcomes -/

/-- Whether publishing an outcome for a key changes what is stored. -/
def changes (g : Graph D) (k : D.Key) (o : Outcome D) : Bool := !(g.node k).holds o

/-- Complete a key with an outcome. -/
def publish (g : Graph D) (k : D.Key) (o : Outcome D) (version : Version) : Graph D :=
  g.update k fun n => n.publish o version

/-- Complete a key with the outcome it has. -/
def confirm (g : Graph D) (k : D.Key) (version : Version) : Graph D :=
  g.update k fun n => n.confirm version

/-- Withdraw the trust in a complete key. -/
def soil (g : Graph D) (k : D.Key) : Graph D := g.adjust k Node.soil

/-- Record that the own input of a completed key changed. -/
def strike (g : Graph D) (k : D.Key) : Graph D := g.adjust k Node.strike

/-- Give a key a value from outside: it then depends on nothing. -/
def inject (g : Graph D) (k : D.Key) (v : D.Value) (version : Version) : Graph D :=
  (g.clearDeps k).publish k (.value v) version

/-- Remove a key and forget that it read its dependencies.  Keys that read it keep it in their
lists. -/
def remove (g : Graph D) (k : D.Key) : Graph D :=
  (g.node k).deps.keys.foldl (fun g dep => g.unlink k dep) ⟨g.nodes.erase k⟩

end Graph

end MemoGraph
