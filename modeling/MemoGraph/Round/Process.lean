import MemoGraph.Round.Reading

/-!
# Rounds: processing one key

A queued key takes one action: it checks one recorded dependency group, confirms that all groups
were unchanged, or runs its function once.  After an action the key has completed, or it is parked
until its waiting dependencies signal it, or it goes to the front of the queue for its next action.
So an action never spans two groups or two invocations, and a key that can go on does so before any
other.
-/

set_option autoImplicit false

namespace MemoGraph

variable {D : Domain}

/-- What re-reading one recorded group showed. -/
structure GroupReading (K : Type) where
  /-- Whether a complete dependency changed after the reader was last evaluated. -/
  changed : Bool
  /-- Dependencies that are not complete. -/
  waiting : List K
  /-- How many of them will signal the reader because of this reading. -/
  enlisted : Nat
  /-- Whether the round was to stop at one of the reads. -/
  cut : Bool

namespace GroupReading

/-- Nothing read yet. -/
def start {K : Type} : GroupReading K :=
  { changed := false, waiting := [], enlisted := 0, cut := false }

/-- Note the reply to one read; `since` is the version at which the reader was last evaluated. -/
def note (seen : GroupReading D.Key) (since : Version) (dep : D.Key) :
    Reply D → GroupReading D.Key
  | .value _ changedAt => { seen with changed := seen.changed || decide (since < changedAt) }
  | .failed _ changedAt => { seen with changed := seen.changed || decide (since < changedAt) }
  | .pending enlisted =>
      { seen with
        waiting := seen.waiting ++ [dep]
        enlisted := seen.enlisted + enlisted.toNat }
  | .interrupted => { seen with cut := true }

end GroupReading

/-- The task of a key with what its last invocation read and kept. -/
def Task.absorb (t : Task D) (inv : Invocation D) : Task D :=
  { t with
    requested := t.requested.pushAll inv.batches
    awaited := t.awaited.insertAll inv.awaited
    scratch := inv.scratch }

namespace Round

/-- Put a key that can go on at the front of the queue. -/
def resume (r : Round D) (k : D.Key) (t : Task D) : Round D :=
  { r.putTask k t with queue := k :: r.queue }

/-- Leave a key waiting for its signals. -/
def park (r : Round D) (k : D.Key) (t : Task D) : Round D :=
  r.putTask k { t with active := false }

/-- Let a key go on if no signal is outstanding, else leave it waiting. -/
def resumeOrPark (r : Round D) (k : D.Key) (t : Task D) : Round D :=
  if t.expected = 0 then r.resume k t else r.park k t

/-! ## Rebuilding -/

/-- Count an invocation of the function of a key. -/
def countCall (s : Setting D) (r : Round D) (k : D.Key) : Nat × Round D :=
  let n := (r.calls.get? k).getD 0 + 1
  (n, ({ r with calls := r.calls.insert k n } : Round D).record s (.called k))

/-- Run a function once for a key, with the state left by its last invocation. -/
def invoke (s : Setting D) (r : Round D) (k : D.Key) (f : Function D)
    (scratch : Option (Scratch D)) : Ending D × Invocation D × Round D :=
  let (n, r) := r.countCall s k
  (f k n).run s k (.start scratch) r

/-- The failure of a key whose function ended with a fault: passed on if the function was shown that
fault, its own otherwise. -/
def declaredFailure (k : D.Key) (fault : D.Fault) (inv : Invocation D) :
    Failure D.Key D.Fault :=
  let source := inv.shown.find? fun child =>
    match child.fault with
    | some shown => D.sameFault shown fault
    | none => false
  match source with
  | some child => .passedOn k fault child
  | none => .own k fault

/-- Draw the consequence of an invocation that wants to be run again.  It waits for the keys that
enlisted it; if no key did, all that it missed has failed. -/
def concludeWaiting (s : Setting D) (r : Round D) (k : D.Key) (t : Task D) (inv : Invocation D) :
    Round D :=
  let t := { t with expected := t.expected + inv.enlisted }
  if t.expected ≠ 0 ∨ inv.enlisted ≠ 0 then r.resumeOrPark k t
  else if inv.failedReads.isEmpty then r.abort (.noProgress k)
  else r.completeFailed s k (some t.requested) (.ofChildren k inv.failedReads)

/-- Draw the consequence of an invocation for a key with the task `t`. -/
def conclude (s : Setting D) (r : Round D) (k : D.Key) (t : Task D) (inv : Invocation D) :
    Ending D → Round D
  | .crash payload => r.abort (.crashed k payload)
  | .fault e => r.completeFailed s k (some t.requested) (declaredFailure k e inv)
  | .value v =>
      if inv.missing then r.abort (.valueWithMissingDeps k) else r.completeBuilt s k t.requested v
  | .needsDeps =>
      if inv.missing then r.concludeWaiting s k t inv else r.abort (.noProgress k)

/-- Run the function of a key once.  What an invocation did is dropped if the round is to stop by
the time it ends, except that a crash still ends the round. -/
def rebuild (s : Setting D) (r : Round D) (k : D.Key) (t : Task D) : Round D :=
  match s.registry.find? k with
  | none => r.abort (.missingFunction k)
  | some f =>
      let (ending, inv, r) := r.invoke s k f t.scratch
      if r.interrupted && !ending.isCrash then r
      else match r.tasks.get? k with
        | none => r
        | some t => r.conclude s k (t.absorb inv) inv ending

/-! ## Checking -/

/-- Re-read the keys of one recorded group. -/
def readGroup (s : Setting D) (k : D.Key) (since : Version) :
    List D.Key → GroupReading D.Key → Round D → GroupReading D.Key × Round D
  | [], seen, r => (seen, r)
  | dep :: rest, seen, r =>
      let (reply, r) := r.readOne s k dep
      readGroup s k since rest (seen.note since dep reply) r

/-- Draw the consequence of re-reading the group at position `i` for a key with the task `t`: a
change means a rebuild, a complete group means the next one, and otherwise the group has to be read
again when the key is signalled. -/
def concludeGroup (r : Round D) (k : D.Key) (t : Task D) (i : Nat) (seen : GroupReading D.Key) :
    Round D :=
  let t := { t with
    awaited := t.awaited.insertAll seen.waiting
    expected := t.expected + seen.enlisted }
  if seen.changed then r.resumeOrPark k { t with mode := .rebuild }
  else if seen.waiting.isEmpty then r.resume k { t with mode := .check (i + 1) }
  else r.resumeOrPark k { t with mode := .check i }

/-- Check one recorded group of a key.  Nothing follows from it if the round was to stop at one of
the reads. -/
def checkGroup (s : Setting D) (r : Round D) (k : D.Key) (i : Nat) (group : List D.Key) :
    Round D :=
  let (seen, r) := readGroup s k (r.graph.node k).evaluatedAt group .start r
  if seen.cut then r
  else match r.tasks.get? k with
    | none => r
    | some t => r.concludeGroup k t i seen

/-- Let a key under evaluation take its next action; a key without a task needs nothing. -/
def process (s : Setting D) (r : Round D) (k : D.Key) : Round D :=
  match r.tasks.get? k with
  | none => r
  | some t =>
      match t.mode with
      | .rebuild => r.rebuild s k t
      | .check i =>
          match (r.graph.node k).deps.group? i with
          | none => r.completeClean s k
          | some group => r.checkGroup s k i group

end Round

end MemoGraph
