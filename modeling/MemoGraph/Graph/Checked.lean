import MemoGraph.Graph
import MemoGraph.Text.Term

/-!
# Operations on keys that must exist

Callers that work on the graph directly may name a key that has no node.  These operations refuse
such a key; on a known key they do what the plain operation does.
-/

set_option autoImplicit false

namespace MemoGraph

variable {D : Domain}

/-- A key has no node although the caller promised one. -/
structure UnknownKey (K : Type) where
  /-- The key. -/
  key : K

namespace UnknownKey

/-- The text of the refusal. -/
def message {K : Type} [Inspect K] (e : UnknownKey K) : String :=
  "node " ++ inspect e.key ++ " is not in the graph"

end UnknownKey

namespace Graph

/-- The node of a key that must exist. -/
def entry (g : Graph D) (k : D.Key) : Except (UnknownKey D.Key) (Node D) :=
  match g.get? k with
  | some n => .ok n
  | none => .error ⟨k⟩

/-- Replace the dependencies of a key that must exist. -/
def setDepsOf (g : Graph D) (k : D.Key) (deps : DepGroups D.Key) :
    Except (UnknownKey D.Key) (Graph D) := do
  let _ ← g.entry k
  return g.setDeps k deps

/-- Complete a key that must exist; yields whether the outcome differs from the stored one. -/
def publishTo (g : Graph D) (k : D.Key) (o : Outcome D) (version : Version) :
    Except (UnknownKey D.Key) (Graph D × Bool) := do
  let _ ← g.entry k
  return (g.publish k o version, g.changes k o)

/-- Confirm a key that must exist. -/
def confirmAt (g : Graph D) (k : D.Key) (version : Version) :
    Except (UnknownKey D.Key) (Graph D) := do
  let _ ← g.entry k
  return g.confirm k version

/-- Withdraw the trust in a key, or record that its own input changed; yields whether it was
complete. -/
def mark (g : Graph D) (k : D.Key) (changed : Bool) : Graph D × Bool :=
  (if changed then g.strike k else g.soil k, g.isComplete k)

end Graph

end MemoGraph
