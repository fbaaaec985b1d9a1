import MemoGraph.Graph
import MemoGraph.Recipe

/-!
# Rounds: state and bookkeeping

A round of one worker brings some root keys up to date.  What it keeps besides the graph lives in a
table of *tasks*, one for each key under evaluation.  A key gets a task when it is first demanded
and loses it when it completes.  Until then its node is shown as the round found it, since nobody
else looks at it.  The entries that several workers share, in `Crew.Entry`, hold node and task
together: such a key is marked as under evaluation, its former status is saved with the task, and
what did not complete is taken back key by key when the round ends.  With one worker both come to
the same (`Crew.exists_of_end`).

A task knows how many signals it still expects.  Every key it waits for lists it among its waiters,
and completing sends each waiter one signal; a task whose last signal has arrived is queued.
-/

set_option autoImplicit false

namespace MemoGraph

variable {D : Domain}

/-- State that a function keeps between its invocations in one round. -/
abbrev Scratch (D : Domain) : Type := (slot : D.Slot) × D.Cell slot

/-- How a key under evaluation is being brought up to date. -/
inductive Mode where
  /-- re-reading the recorded dependency groups, the one at `group` next -/
  | check (group : Nat)
  /-- running the function -/
  | rebuild
  deriving DecidableEq, Repr

/-- What a round keeps for a key under evaluation. -/
structure Task (D : Domain) where
  /-- How the key is being brought up to date. -/
  mode : Mode
  /-- Dependencies requested by the function so far, over all its invocations. -/
  requested : DepGroups D.Key
  /-- Every dependency the key had to wait for. -/
  awaited : OrderedSet D.Key
  /-- The keys to signal on completion. -/
  waiters : OrderedSet D.Key
  /-- Signals still expected before the key can go on. -/
  expected : Int
  /-- Whether the key is queued or running. -/
  active : Bool
  /-- State left by the last invocation. -/
  scratch : Option (Scratch D)

/-- The task of a key that was just demanded: dirty keys are checked, others rebuilt. -/
def Task.start (status : Status) : Task D :=
  { mode := if status = .dirty then .check 0 else .rebuild
    requested := ∅, awaited := ∅, waiters := ∅, expected := 0, active := true
    scratch := none }

/-- How a key completed. -/
inductive Completion where
  /-- built, with an outcome that differs from the one before -/
  | builtChanged
  /-- built, with the outcome it had before -/
  | builtSame
  /-- verified without running its function -/
  | clean
  /-- failed -/
  | failed
  deriving DecidableEq, Repr

/-- What an observer is told during a round. -/
inductive Event (D : Domain) where
  /-- a key came under evaluation -/
  | enqueued (k : D.Key)
  /-- the function of a key was invoked -/
  | called (k : D.Key)
  /-- a key completed -/
  | completed (k : D.Key) (how : Completion)

/-- Why a round was given up as a whole. -/
inductive Abort (K : Type) where
  /-- a function crashed -/
  | crashed (k : K) (payload : Payload)
  /-- no function is registered for the kind of a key -/
  | missingFunction (k : K)
  /-- a function ended with a value although a read had found none -/
  | valueWithMissingDeps (k : K)
  /-- a function asked to be run again although no read had found a value missing -/
  | noProgress (k : K)
  /-- the round was asked to stop -/
  | interrupted
  deriving DecidableEq, Repr

/-- What stays fixed during a round. -/
structure Setting (D : Domain) where
  /-- The functions. -/
  registry : Registry D
  /-- The version of the round. -/
  version : Version
  /-- Whether to go on after a failure. -/
  keepGoing : Bool
  /-- The keys to bring up to date, each once. -/
  roots : OrderedSet D.Key
  /-- Told all events so far, newest first, after each event; answers whether to stop the round. -/
  observer : List (Event D) → Bool

/-- The state of a running round. -/
structure Round (D : Domain) where
  /-- The graph. -/
  graph : Graph D
  /-- The keys under evaluation. -/
  tasks : Table D.Key (Task D)
  /-- Keys whose tasks can go on, first in first out. -/
  queue : List D.Key
  /-- Set by the first failure unless the round keeps going: nothing more is queued. -/
  stopping : Bool
  /-- Why the round was given up, once it was. -/
  aborted : Option (Abort D.Key)
  /-- Whether the round was asked to stop. -/
  interrupted : Bool
  /-- The cycles broken so far. -/
  cycles : List (Cycle D.Key)
  /-- Invocations of each function, counted over the whole session. -/
  calls : Table D.Key Nat
  /-- The events so far, newest first. -/
  log : List (Event D)

namespace Round

/-- Whether queued work is skipped. -/
def halted (r : Round D) : Bool := r.aborted.isSome || r.interrupted

/-- Tell the observer about an event. -/
def record (s : Setting D) (r : Round D) (e : Event D) : Round D :=
  { r with log := e :: r.log, interrupted := r.interrupted || s.observer (e :: r.log) }

/-- Give the round up. -/
def abort (r : Round D) (a : Abort D.Key) : Round D := { r with aborted := some a }

/-- Replace the task of a key. -/
def putTask (r : Round D) (k : D.Key) (t : Task D) : Round D :=
  { r with tasks := r.tasks.insert k t }

/-- Append a key to the queue, unless the round is stopping. -/
def enqueue (r : Round D) (k : D.Key) : Round D :=
  if r.stopping then r else { r with queue := r.queue ++ [k] }

/-- Bring a key under evaluation, unless it is complete or has a task already. -/
def demand (s : Setting D) (r : Round D) (k : D.Key) : Round D :=
  let r := { r with graph := r.graph.create k }
  if r.graph.isComplete k || r.tasks.contains k then r
  else ((r.putTask k (Task.start (r.graph.node k).status)).record s (.enqueued k)).enqueue k

/-! ## Completion -/

/-- Tell one waiter that a key it waits for completed; the last signal queues it. -/
def signal (r : Round D) (waiter : D.Key) : Round D :=
  match r.tasks.get? waiter with
  | none => r
  | some t =>
      let t := { t with expected := t.expected - 1 }
      if t.expected = 0 ∧ t.active = false then
        (r.putTask waiter { t with active := true }).enqueue waiter
      else
        r.putTask waiter t

/-- The keys to signal when a key completes. -/
def waiters (r : Round D) (k : D.Key) : List D.Key :=
  match r.tasks.get? k with
  | some t => t.waiters.toList
  | none => []

/-- Drop the task of a completed key and signal its waiters. -/
def release (s : Setting D) (r : Round D) (k : D.Key) (how : Completion) : Round D :=
  let waiters := r.waiters k
  waiters.foldl signal (({ r with tasks := r.tasks.erase k } : Round D).record s (.completed k how))

/-- Complete a key with a value read from `deps`. -/
def completeBuilt (s : Setting D) (r : Round D) (k : D.Key) (deps : DepGroups D.Key)
    (v : D.Value) : Round D :=
  let how := if r.graph.changes k (.value v) then Completion.builtChanged else .builtSame
  let graph := (r.graph.setDeps k deps).publish k (.value v) s.version
  ({ r with graph := graph } : Round D).release s k how

/-- Complete a key with a failure.  Without `deps` its recorded dependencies stay. -/
def completeFailed (s : Setting D) (r : Round D) (k : D.Key) (deps : Option (DepGroups D.Key))
    (e : Failure D.Key D.Fault) : Round D :=
  let graph := match deps with
    | some deps => r.graph.setDeps k deps
    | none => r.graph
  let graph := graph.publish k (.failure e) s.version
  ({ r with graph := graph, stopping := r.stopping || !s.keepGoing } : Round D).release s k .failed

/-- Complete a key with the outcome it has. -/
def completeClean (s : Setting D) (r : Round D) (k : D.Key) : Round D :=
  ({ r with graph := r.graph.confirm k s.version } : Round D).release s k .clean

end Round

end MemoGraph
