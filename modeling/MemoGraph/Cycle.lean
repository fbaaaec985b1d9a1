/-!
# Dependency cycles

A `Cycle` is a closed chain of keys, each depending on the next and the last on the first,
together with the path by which an observer first entered it.
-/

set_option autoImplicit false

namespace MemoGraph

/-- A dependency cycle, as seen from some entry point. -/
structure Cycle (K : Type) where
  /-- Keys leading from the entry point to the first member, none of them a member. -/
  path : List K
  /-- The members in the order in which they depend on each other. -/
  members : List K
  deriving DecidableEq, Repr

namespace Cycle

variable {K : Type}

/-- Whether a key is on the cycle itself. -/
def isMember [DecidableEq K] (c : Cycle K) (k : K) : Bool := decide (k ∈ c.members)

/-- The same cycle seen from a dependent of the current entry point. -/
def seenFrom (k : K) (c : Cycle K) : Cycle K := { c with path := k :: c.path }

@[simp] theorem members_seenFrom (k : K) (c : Cycle K) :
    (c.seenFrom k).members = c.members := rfl

@[simp] theorem path_seenFrom (k : K) (c : Cycle K) :
    (c.seenFrom k).path = k :: c.path := rfl

/-- The same cycle without the path to it. -/
def bare (c : Cycle K) : Cycle K := { c with path := [] }

end Cycle

end MemoGraph
