import MemoGraph.DepGroups
import MemoGraph.Domain
import MemoGraph.Failure

/-!
# Nodes

A `Node` is what the graph knows about one key between rounds: the last outcome, the dependencies
that the last computation read, the keys that read this one, and two versions.  A node is *complete*
when its outcome can be trusted.  Publishing an outcome that counts as the stored one keeps the
stored one together with the version at which it appeared, so that readers need not be rebuilt.
-/

set_option autoImplicit false

namespace MemoGraph

variable {D : Domain}

/-- What a computation left behind: a value or a failure. -/
inductive Outcome (D : Domain) where
  /-- the computed value -/
  | value (v : D.Value)
  /-- the failure of the node -/
  | failure (e : Failure D.Key D.Fault)

namespace Outcome

/-- Whether a new outcome counts as the old one. -/
def same : Outcome D → Outcome D → Bool
  | .value v, .value v' => D.sameValue v v'
  | .failure e, .failure e' => e.same D.sameFault e'
  | _, _ => false

/-- The value, if there is one. -/
def value? : Outcome D → Option D.Value
  | .value v => some v
  | .failure _ => none

/-- The failure, if there is one. -/
def failure? : Outcome D → Option (Failure D.Key D.Fault)
  | .value _ => none
  | .failure e => some e

end Outcome

/-- How far the outcome of a node can be trusted. -/
inductive Status where
  /-- created but never completed -/
  | new
  /-- something it depends on may have changed: check before use -/
  | dirty
  /-- its own input changed: rebuild without a check -/
  | changed
  /-- up to date -/
  | current
  deriving DecidableEq, Repr

/-- The state of a node as callers see it: a current node is done or failed. -/
inductive NodeState where
  /-- created but never completed -/
  | new
  /-- to be checked before use -/
  | dirty
  /-- to be rebuilt before use -/
  | changed
  /-- holds an up-to-date value -/
  | done
  /-- holds an up-to-date failure -/
  | failed
  deriving DecidableEq, Repr

/-- The record kept for one key. -/
structure Node (D : Domain) where
  /-- How far the outcome can be trusted. -/
  status : Status
  /-- The last outcome, kept while the node is dirty. -/
  outcome : Option (Outcome D)
  /-- Dependencies of the last completed evaluation. -/
  deps : DepGroups D.Key
  /-- The keys that list this one among their dependencies. -/
  rdeps : OrderedSet D.Key
  /-- The version at which the outcome last changed. -/
  changedAt : Version
  /-- The version at which the node was last built or verified. -/
  evaluatedAt : Version

namespace Node

/-- A node that was never completed. -/
def fresh : Node D :=
  { status := .new, outcome := none, deps := ∅, rdeps := ∅, changedAt := .initial,
    evaluatedAt := .initial }

instance : Inhabited (Node D) := ⟨fresh⟩

/-- Whether the node needs no work before it can be read. -/
def isComplete (n : Node D) : Bool := decide (n.status = .current)

/-- Whether the node was complete and has to be checked or rebuilt. -/
def isDirty (n : Node D) : Bool := decide (n.status = .dirty ∨ n.status = .changed)

/-- The last value, even if the node is dirty. -/
def lastValue? (n : Node D) : Option D.Value := n.outcome.bind Outcome.value?

/-- The last failure, even if the node is dirty. -/
def lastFailure? (n : Node D) : Option (Failure D.Key D.Fault) := n.outcome.bind Outcome.failure?

/-- The state as callers see it. -/
def state (n : Node D) : NodeState :=
  match n.status with
  | .new => .new
  | .dirty => .dirty
  | .changed => .changed
  | .current => if n.lastFailure?.isSome then .failed else .done

/-- The outcome, if it can be trusted. -/
def settled? (n : Node D) : Option (Outcome D) := if n.isComplete then n.outcome else none

/-- The value, if it can be trusted. -/
def value? (n : Node D) : Option D.Value := n.settled?.bind Outcome.value?

/-- The failure, if it can be trusted. -/
def failure? (n : Node D) : Option (Failure D.Key D.Fault) := n.settled?.bind Outcome.failure?

/-- Whether the stored outcome counts as the given one. -/
def holds (n : Node D) (o : Outcome D) : Bool :=
  match n.outcome with
  | some old => old.same o
  | none => false

/-- Complete the node with an outcome.  An outcome that counts as the stored one leaves the stored
one and its version in place. -/
def publish (n : Node D) (o : Outcome D) (version : Version) : Node D :=
  { n with
    status := .current
    outcome := if n.holds o then n.outcome else some o
    changedAt := if n.holds o then n.changedAt else version
    evaluatedAt := version }

/-- Complete the node with the outcome it has. -/
def confirm (n : Node D) (version : Version) : Node D :=
  { n with status := .current, evaluatedAt := version }

/-- Withdraw the trust in a complete node. -/
def soil (n : Node D) : Node D := if n.isComplete then { n with status := .dirty } else n

/-- Record that the own input of a node changed.  A node that was never completed stays new. -/
def strike (n : Node D) : Node D :=
  if n.isComplete || n.isDirty then { n with status := .changed } else n

end Node

end MemoGraph
