import MemoGraph.Domain
import MemoGraph.Table

/-!
# Recipes

A function is written as a tree of requests.  At each inner node it asks something of the round it
runs in and goes on with the answer; at a leaf it ends with a value, with a fault, with the wish to
be run again once its missing dependencies are there, or by crashing.  The tree is pure: running it
is the business of the round.
-/

set_option autoImplicit false

namespace MemoGraph

/-- What a crashing function leaves behind. -/
inductive Payload where
  /-- a message fixed in the function -/
  | literal (message : String)
  /-- a message composed while running -/
  | composed (message : String)
  /-- a number, without a message -/
  | code (n : Nat)
  deriving DecidableEq, Repr

/-- What a read of one dependency answers. -/
inductive Answer (D : Domain) where
  /-- the value of the dependency -/
  | value (v : D.Value)
  /-- no value: not computed yet, failed, or the round is to stop -/
  | missing
  /-- a declared fault that the reader accepted -/
  | fault (e : D.Fault)

/-- One invocation of a function, as a tree of requests to the round. -/
inductive Recipe (D : Domain) where
  /-- end with a value -/
  | value (v : D.Value)
  /-- end without a value: run again when the missing dependencies are there -/
  | needsDeps
  /-- end with a declared fault -/
  | fault (e : D.Fault)
  /-- break off -/
  | crash (payload : Payload)
  /-- read a batch of dependencies; accepted faults are shown, others read as missing -/
  | read (batch : List D.Key) (accepts : D.Fault → Bool)
      (next : Table D.Key (Answer D) → Recipe D)
  /-- ask whether any read so far found no value -/
  | valuesMissing (next : Bool → Recipe D)
  /-- ask whether the round is to stop -/
  | isInterrupted (next : Bool → Recipe D)
  /-- ask for the version of the round -/
  | version (next : Version → Recipe D)
  /-- look into a slot of the state kept between invocations; this makes it the slot in use, blank
  if another one was -/
  | load (slot : D.Slot) (next : D.Cell slot → Recipe D)
  /-- replace the state kept between invocations -/
  | store (slot : D.Slot) (content : D.Cell slot) (next : Recipe D)
  /-- ask the round to stop -/
  | interrupt (next : Recipe D)

/-- The function of a kind: what to do for a key at the n-th invocation for it, counted from 1. -/
abbrev Function (D : Domain) : Type := D.Key → Nat → Recipe D

/-- Kinds and their functions. -/
structure Registry (D : Domain) where
  /-- The function of each registered kind. -/
  functions : Table D.Kind (Function D)

namespace Registry

variable {D : Domain}

/-- No functions. -/
def empty : Registry D := ⟨∅⟩

instance : EmptyCollection (Registry D) := ⟨empty⟩

/-- Register the function of a kind, replacing any earlier one. -/
def register (r : Registry D) (kind : D.Kind) (f : Function D) : Registry D :=
  ⟨r.functions.insert kind f⟩

/-- The function that computes a key. -/
def find? (r : Registry D) (k : D.Key) : Option (Function D) := r.functions.get? (D.kindOf k)

/-- Whether a kind has a function. -/
def contains (r : Registry D) (kind : D.Kind) : Bool := r.functions.contains kind

/-- Number of registered kinds. -/
def size (r : Registry D) : Nat := r.functions.size

/-- The registered kinds. -/
def kinds (r : Registry D) : List D.Kind := r.functions.keys

end Registry

end MemoGraph
