import MemoGraph.Cycle.Search
import MemoGraph.Round.Process

/-!
# Rounds: running to the end

A round lets queued keys take their actions one after the other.  When the queue is empty and some
root is still not complete, only a dependency cycle can hold it up: the cycles below the incomplete
roots are found, all their members fail, and the round goes on.  `run` repeats `step` at most as
often as its budget allows.
-/

set_option autoImplicit false

namespace MemoGraph

variable {D : Domain}

namespace Round

/-- The start of a round: every root is brought under evaluation. -/
def start (s : Setting D) (graph : Graph D) (calls : Table D.Key Nat) : Round D :=
  s.roots.toList.foldl (demand s)
    { graph := graph, tasks := ∅, queue := [], stopping := false, aborted := none,
      interrupted := false, cycles := [], calls := calls, log := [] }

/-- The incomplete keys that a key waits for. -/
def blockers (r : Round D) (k : D.Key) : List D.Key :=
  match r.tasks.get? k with
  | some t => t.awaited.toList.filter fun dep => !r.graph.isComplete dep
  | none => []

/-- The roots that are not complete. -/
def stuck (s : Setting D) (r : Round D) : List D.Key :=
  s.roots.toList.filter fun root => !r.graph.isComplete root

/-- The cycles among `found` that a key is on, each without the path to it. -/
def cyclesOf (found : List (Cycle D.Key)) (k : D.Key) : List (Cycle D.Key) :=
  (OrderedSet.ofList ((found.filter fun c => c.isMember k).map Cycle.bare)).toList

/-- Fail a key because of the cycles it is on.  A key that was running its function completes with
what it requested, one that was being checked keeps its recorded dependencies. -/
def failMember (s : Setting D) (found : List (Cycle D.Key)) (r : Round D) (k : D.Key) : Round D :=
  match r.tasks.get? k with
  | none => r
  | some t =>
      let deps := if t.mode = .rebuild then some t.requested else none
      r.completeFailed s k deps (.ofCycles (cyclesOf found k))

/-- Fail every member of the given cycles. -/
def failMembers (s : Setting D) (r : Round D) (found : List (Cycle D.Key)) : Round D :=
  let members := OrderedSet.ofList (found.flatMap Cycle.members)
  members.toList.foldl (failMember s found) { r with cycles := r.cycles ++ found }

/-- The cycles that hold up incomplete roots. -/
def heldUpBy (s : Setting D) (r : Round D) : List (Cycle D.Key) :=
  Cycle.find r.blockers r.tasks.keys (r.stuck s)

/-- One step: process a queued key, or break the cycles that hold up the roots.  There is no step
once the round is over. -/
def step (s : Setting D) (r : Round D) : Option (Round D) :=
  match r.queue with
  | k :: rest =>
      let r := { r with queue := rest }
      some (if r.halted then r else r.process s k)
  | [] =>
      if r.halted || r.stopping then none
      else
        let found := r.heldUpBy s
        if found.isEmpty then none else some (r.failMembers s found)

/-- Step until the round is over; `none` if that takes more steps than the budget allows. -/
def run (s : Setting D) : Nat → Round D → Option (Round D)
  | 0, _ => none
  | budget + 1, r =>
      match r.step s with
      | none => some r
      | some r => run s budget r

end Round

end MemoGraph
