import MemoGraph.Round.Basic

/-!
# Rounds: reading dependencies

Reads never block.  A dependency that is not complete is brought under evaluation, the reader is
entered among its waiters, and the read finds no value.  `Recipe.run` carries one invocation of a
function through its requests and notes what it read.
-/

set_option autoImplicit false

namespace MemoGraph

variable {D : Domain}

/-- What a reader is told about a dependency. -/
inductive Reply (D : Domain) where
  /-- a value, and the version at which it appeared -/
  | value (v : D.Value) (changedAt : Version)
  /-- a failure, and the version at which it appeared -/
  | failed (e : Failure D.Key D.Fault) (changedAt : Version)
  /-- not complete yet; `enlisted` if this read made the reader one of its waiters -/
  | pending (enlisted : Bool)
  /-- the round is to stop -/
  | interrupted

namespace Round

/-- Enter a reader among the waiters of a key under evaluation. -/
def await (r : Round D) (reader dep : D.Key) : Bool × Round D :=
  match r.tasks.get? dep with
  | none => (false, r)
  | some t =>
      if reader ∈ t.waiters then (false, r)
      else (true, r.putTask dep { t with waiters := t.waiters.insert reader })

/-- Read a dependency, bringing it under evaluation if needed. -/
def readOne (s : Setting D) (r : Round D) (reader dep : D.Key) : Reply D × Round D :=
  if r.interrupted then (.interrupted, r)
  else
    let r := r.demand s dep
    let n := r.graph.node dep
    match n.settled? with
    | some (.value v) => (.value v n.changedAt, r)
    | some (.failure e) => (.failed e n.changedAt, r)
    | none =>
        let (enlisted, r) := r.await reader dep
        (.pending enlisted, r)

end Round

/-- What one invocation of a function has read so far. -/
structure Invocation (D : Domain) where
  /-- The requested batches, in order. -/
  batches : List (List D.Key)
  /-- Dependencies that were not complete. -/
  awaited : List D.Key
  /-- How many of them will signal the reader because of this invocation. -/
  enlisted : Nat
  /-- Whether a read found no value. -/
  missing : Bool
  /-- Failures of dependencies that read as missing. -/
  failedReads : List (Failure D.Key D.Fault)
  /-- Failures of dependencies that were shown to the function. -/
  shown : List (Failure D.Key D.Fault)
  /-- State kept between invocations. -/
  scratch : Option (Scratch D)

namespace Invocation

/-- An invocation that has read nothing. -/
def start (scratch : Option (Scratch D)) : Invocation D :=
  { batches := [], awaited := [], enlisted := 0, missing := false, failedReads := [],
    shown := [], scratch := scratch }

/-- The content of a slot: blank unless the slot was the last one accessed. -/
def content (inv : Invocation D) (slot : D.Slot) : D.Cell slot :=
  match inv.scratch with
  | some ⟨last, content⟩ => if h : last = slot then h ▸ content else D.blank slot
  | none => D.blank slot

/-- Note the reply to one read and tell the function its answer.  A failure is shown if it has a
declared fault that the reader accepts; anything else without a value is missing. -/
def note (inv : Invocation D) (accepts : D.Fault → Bool) (dep : D.Key) :
    Reply D → Answer D × Invocation D
  | .value v _ => (.value v, inv)
  | .failed e _ =>
      match e.fault.filter accepts with
      | some fault => (.fault fault, { inv with shown := inv.shown ++ [e] })
      | none => (.missing, { inv with missing := true, failedReads := inv.failedReads ++ [e] })
  | .pending enlisted =>
      (.missing, { inv with
        missing := true
        enlisted := inv.enlisted + enlisted.toNat
        awaited := inv.awaited ++ [dep] })
  | .interrupted => (.missing, { inv with missing := true })

end Invocation

/-- How an invocation ended. -/
inductive Ending (D : Domain) where
  /-- with a value -/
  | value (v : D.Value)
  /-- waiting for dependencies -/
  | needsDeps
  /-- with a declared fault -/
  | fault (e : D.Fault)
  /-- broken off -/
  | crash (payload : Payload)

namespace Ending

/-- Whether an invocation broke off. -/
def isCrash : Ending D → Bool
  | .crash _ => true
  | _ => false

end Ending

namespace Round

/-- Read the keys of a batch in turn. -/
def readEach (s : Setting D) (k : D.Key) (accepts : D.Fault → Bool) :
    List D.Key → Invocation D → Round D → List (D.Key × Answer D) × Invocation D × Round D
  | [], inv, r => ([], inv, r)
  | dep :: rest, inv, r =>
      let (reply, r) := r.readOne s k dep
      let (answer, inv) := inv.note accepts dep reply
      let (answers, inv, r) := readEach s k accepts rest inv r
      ((dep, answer) :: answers, inv, r)

end Round

/-- Carry an invocation for the key `k` to its end. -/
def Recipe.run (s : Setting D) (k : D.Key) :
    Recipe D → Invocation D → Round D → Ending D × Invocation D × Round D
  | .value v, inv, r => (.value v, inv, r)
  | .needsDeps, inv, r => (.needsDeps, inv, r)
  | .fault e, inv, r => (.fault e, inv, r)
  | .crash payload, inv, r => (.crash payload, inv, r)
  | .read batch accepts next, inv, r =>
      let inv := { inv with batches := inv.batches ++ [batch] }
      let (answers, inv, r) := r.readEach s k accepts batch inv
      (next (.ofList answers)).run s k inv r
  | .valuesMissing next, inv, r => (next inv.missing).run s k inv r
  | .isInterrupted next, inv, r => (next r.interrupted).run s k inv r
  | .version next, inv, r => (next s.version).run s k inv r
  | .load slot next, inv, r =>
      let content := inv.content slot
      (next content).run s k { inv with scratch := some ⟨slot, content⟩ } r
  | .store slot content next, inv, r =>
      next.run s k { inv with scratch := some ⟨slot, content⟩ } r
  | .interrupt next, inv, r => next.run s k inv { r with interrupted := true }

end MemoGraph
