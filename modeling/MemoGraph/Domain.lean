/-!
# Domains

A `Domain` fixes what is computed: the keys, the values and faults that computations produce, the
kinds that choose the function for a key, and the slots in which a computation may keep state
between its invocations.  Values and faults are compared by tests of the domain; nothing is
assumed of these tests, not even that a value equals itself.
-/

set_option autoImplicit false

namespace MemoGraph

/-- The vocabulary of a family of computations. -/
structure Domain where
  /-- Names of the things to compute. -/
  Key : Type
  /-- What a computation produces. -/
  Value : Type
  /-- How a computation declares failure. -/
  Fault : Type
  /-- Keys of one kind are computed by one function. -/
  Kind : Type
  /-- Names of the forms of state a computation may keep between invocations. -/
  Slot : Type
  /-- The content of each slot. -/
  Cell : Slot → Type
  /-- The kind of a key. -/
  kindOf : Key → Kind
  /-- The content of a slot before anything is stored in it. -/
  blank : (slot : Slot) → Cell slot
  /-- The test by which a new value counts as the old one. -/
  sameValue : Value → Value → Bool
  /-- The test by which a new fault counts as the old one. -/
  sameFault : Fault → Fault → Bool
  /-- Keys can be told apart. -/
  decKey : DecidableEq Key
  /-- Kinds can be told apart. -/
  decKind : DecidableEq Kind
  /-- Slots can be told apart. -/
  decSlot : DecidableEq Slot

attribute [instance] Domain.decKey Domain.decKind Domain.decSlot

/-- Rounds are numbered from 1; version 0 precedes every round. -/
abbrev Version : Type := Nat

/-- The version before any round. -/
def Version.initial : Version := 0

end MemoGraph
