import MemoGraph.Cycle
import MemoGraph.OrderedSet

/-!
# Memoized failures

A `Failure` is what a node holds in place of a value.  It is stored like a value and carries what
its readers need to explain themselves: the declared fault, the keys whose own failure caused it,
and the dependency cycles it stems from.  The functions below are the only ways in which failures
arise: a node fails by itself, is on a cycle, passes a fault on, or cannot complete because
dependencies failed.
-/

set_option autoImplicit false

namespace MemoGraph

/-- Where the failure of a node came from. -/
inductive Origin where
  /-- the node itself failed, or is on a cycle -/
  | own
  /-- a dependency failed and the node did not handle it -/
  | propagated
  deriving DecidableEq, Repr

/-- The failure of one node. -/
structure Failure (K E : Type) where
  /-- The declared fault, absent if only cycles are to blame. -/
  fault : Option E
  /-- Keys whose own failure caused this one. -/
  rootCauses : OrderedSet K
  /-- Cycles this failure stems from. -/
  cycles : List (Cycle K)
  /-- Whether the node failed by itself. -/
  origin : Origin

namespace Failure

variable {K E : Type}

/-- The node `k` failed with `fault`. -/
def own (k : K) (fault : E) : Failure K E :=
  { fault := some fault, rootCauses := .singleton k, cycles := [], origin := .own }

/-- The node is on each of `cycles`. -/
def ofCycles (cycles : List (Cycle K)) : Failure K E :=
  { fault := none, rootCauses := ∅, cycles := cycles, origin := .own }

/-- The node `k` returned `fault`, which it was shown by a dependency with the failure `child`. -/
def passedOn (k : K) (fault : E) (child : Failure K E) : Failure K E :=
  { fault := some fault
    rootCauses := child.rootCauses
    cycles := child.cycles.map (Cycle.seenFrom k)
    origin := .propagated }

/-- The cycles of `children` seen from `k`: those that `k` is on are left out, the others are
listed once each. -/
def cyclesBelow [DecidableEq K] (k : K) (children : List (Failure K E)) : List (Cycle K) :=
  let foreign := (children.flatMap cycles).filter fun c => !c.isMember k
  (OrderedSet.ofList (foreign.map (Cycle.seenFrom k))).toList

/-- The node `k` could not complete because each of `children` failed: the first declared fault
stands for all, causes and cycles are collected from all. -/
def ofChildren [DecidableEq K] (k : K) (children : List (Failure K E)) : Failure K E :=
  { fault := children.findSome? fault
    rootCauses := .ofList (children.flatMap fun child => child.rootCauses.toList)
    cycles := cyclesBelow k children
    origin := .propagated }

/-- The failure `child` seen from the start of `chain`, the dependency path that leads down to the
failing node, without that node. -/
def seenAlong (chain : List K) (child : Failure K E) : Failure K E :=
  { child with
    cycles := chain.foldr (fun k cycles => cycles.map (Cycle.seenFrom k)) child.cycles
    origin := .propagated }

/-- Whether the node failed by itself rather than through a dependency. -/
def isOwn (e : Failure K E) : Bool := decide (e.origin = .own)

/-- Whether the failure exists only because of dependency cycles. -/
def isCycle (e : Failure K E) : Bool := e.fault.isNone && !e.cycles.isEmpty

/-- Whether two failures count as the same: faults by the given test, causes as sets, cycles as
lists. -/
def same [DecidableEq K] (sameFault : E → E → Bool) (e e' : Failure K E) : Bool :=
  (match e.fault, e'.fault with
    | none, none => true
    | some f, some f' => sameFault f f'
    | _, _ => false) &&
  e.rootCauses.sameMembers e'.rootCauses && decide (e.cycles = e'.cycles) &&
    decide (e.origin = e'.origin)

end Failure

end MemoGraph
