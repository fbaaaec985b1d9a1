import MemoGraph.Crew.Stage
import MemoGraph.Session

/-!
# Rounds of several workers

A `Crew` works on one round.  A lead brings the roots under evaluation and then lets the workers
take keys from the queue.  When all of them are idle and the queue is empty, the lead sees whether
the round was given up or is to stop, and otherwise breaks the cycles that hold up incomplete roots
and lets the workers go on.  In the end it takes back every evaluation that did not complete.
Whose step comes next is left open: the steps of different workers may come in any order, and the
round may be asked to stop between any two of them.
-/

set_option autoImplicit false

namespace MemoGraph

variable {D : Domain}

/-- Where the lead of a crew is. -/
inductive Lead (D : Domain) where
  /-- at work itself; while it is idle, the workers are at work -/
  | acting (stage : Stage D)
  /-- to look for roots that are held up -/
  | surveying
  /-- done -/
  | over (verdict : Except (Abort D.Key) (Report D))

/-- The state of a round that several workers work on. -/
structure Crew (D : Domain) where
  /-- What the workers share. -/
  live : Live D
  /-- The lead. -/
  lead : Lead D
  /-- The workers. -/
  workers : List (Stage D)
  /-- The cycles broken so far. -/
  cycles : List (Cycle D.Key)

/-- Whether a worker is idle. -/
def Stage.isIdle : Stage D → Bool
  | .idle => true
  | _ => false

namespace Crew

/-- The start of a round. -/
def start (s : Setting D) (graph : Graph D) (calls : Table D.Key Nat) (workers : Nat) : Crew D :=
  { live :=
      { store := .ofGraph graph, queue := [], touched := ∅, stopping := false, failed := false,
        fatal := none, interrupted := false, calls := calls, log := [] }
    lead := .acting (.opening s.roots.toList)
    workers := List.replicate workers .idle
    cycles := [] }

/-- Whether all work is done that can be done. -/
def isQuiet (c : Crew D) : Bool := c.live.queue.isEmpty && c.workers.all Stage.isIdle

/-- The round as one state, to look for cycles and to report. -/
def round (c : Crew D) : Round D :=
  { graph := c.live.store.graph, tasks := c.live.store.tasks, queue := c.live.queue,
    stopping := c.live.stopping, aborted := c.live.fatal, interrupted := c.live.interrupted,
    cycles := c.cycles, calls := c.live.calls, log := c.live.log }

/-- Take back every evaluation that did not complete. -/
def abandon (l : Live D) : Live D := { l with store := l.store.abandonAll l.touched.toList }

/-- End the round. -/
def finish (c : Crew D) (verdict : Except (Abort D.Key) (Report D)) : Crew D :=
  { c with live := abandon c.live, lead := .over verdict }

/-- See whether the round was given up or is to stop.  A wish to stop is obeyed by ending. -/
def check (c : Crew D) : Crew D :=
  match c.live.fatal with
  | some a => c.finish (.error a)
  | none =>
      if c.live.interrupted then
        { c with live := { c.live with interrupted := false } }.finish (.error .interrupted)
      else { c with lead := .surveying }

/-- Break the cycles that hold up incomplete roots, or end with a report if there are none. -/
def survey (s : Setting D) (c : Crew D) : Crew D :=
  let found := c.round.heldUpBy s
  if c.live.stopping || found.isEmpty then c.finish (.ok (c.round.report s))
  else
    let members := OrderedSet.ofList (found.flatMap Cycle.members)
    { c with cycles := c.cycles ++ found, lead := .acting (.breaking found members.toList) }

/-- One step of the lead, or of the worker with the given number while the lead waits.  There is no
step once the round is over. -/
def turn (s : Setting D) (c : Crew D) (i : Nat) : Option (Crew D) :=
  match c.lead with
  | .over _ => none
  | .surveying => some (c.survey s)
  | .acting .idle =>
      if c.isQuiet then some c.check
      else c.workers[i]?.map fun stage =>
        let (live, stage) := stage.step s c.live
        { c with live := live, workers := c.workers.set i stage }
  | .acting stage =>
      let (live, stage) := stage.step s c.live
      some { c with live := live, lead := .acting stage }

/-- Ask the round to stop, from outside. -/
def stop (c : Crew D) : Crew D := { c with live := { c.live with interrupted := true } }

/-- What can happen in a round: a step of anyone, or a wish to stop from outside. -/
inductive Step (s : Setting D) : Crew D → Crew D → Prop where
  /-- the lead or a worker takes a step -/
  | turn {c c' : Crew D} (i : Nat) : c.turn s i = some c' → Step s c c'
  /-- the round is asked to stop -/
  | stop {c : Crew D} : (∀ verdict, c.lead ≠ .over verdict) → Step s c c.stop

/-- Let the worker with the number `schedule n` take the turn when `n` turns are left, until the
round is over; `none` if that takes more turns than the budget allows. -/
def run (s : Setting D) (schedule : Nat → Nat) : Nat → Crew D → Option (Crew D)
  | 0, _ => none
  | budget + 1, c =>
      match c.lead with
      | .over _ => some c
      | _ => run s schedule budget ((c.turn s (schedule budget)).getD c)

end Crew

namespace Session

/-- The round of some workers as it starts.  A stop asked for between rounds is discarded. -/
def muster (session : Session D) (s : Setting D) (workers : Nat) : Crew D :=
  Crew.start s (session.injectedGraph s.version) session.calls workers

/-- The session after a round that is over. -/
def disband (session : Session D) (s : Setting D) (c : Crew D) : Session D :=
  { session with
    graph := c.live.store.graph
    version := s.version
    injections := ∅
    interrupted := c.live.interrupted
    calls := c.live.calls }

/-- Run one round with some workers that take turns by a schedule; `none` if it takes more turns
than the budget allows. -/
def evaluateWith (session : Session D) (budget workers : Nat) (schedule : Nat → Nat)
    (roots : List D.Key) (keepGoing : Bool) (observer : List (Event D) → Bool) :
    Option (Session D × Evaluation D) :=
  let s := session.setting roots keepGoing observer
  match Crew.run s schedule budget (session.muster s workers) with
  | none => none
  | some c =>
      match c.lead with
      | .over verdict =>
          some (session.disband s c, { verdict := verdict, events := c.live.log.reverse })
      | _ => none

end Session

end MemoGraph
