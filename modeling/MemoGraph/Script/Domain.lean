import MemoGraph.Domain
import MemoGraph.Text.Json
import MemoGraph.Text.Term

/-!
# The domain of scripted computations

Keys are named nodes and named inputs; values and faults are texts.  Two texts count as the same if
they agree up to their first `#`, what follows being a remark, except that a text starting with
`nan` counts as the same as nothing, not even as itself.
-/

set_option autoImplicit false

namespace MemoGraph.Script

/-- A key of a scripted computation. -/
inductive Key where
  /-- a computed node -/
  | node (name : String)
  /-- an input -/
  | input (name : String)
  deriving DecidableEq, Repr

/-- The kind of a key. -/
inductive Kind where
  /-- computed nodes -/
  | node
  /-- inputs -/
  | input
  deriving DecidableEq, Repr

/-- The forms of state a script may keep between invocations. -/
inductive Slot where
  /-- a number, at first 0 -/
  | number
  /-- a text, at first empty -/
  | text
  deriving DecidableEq, Repr

/-- A computed value. -/
structure Value where
  /-- Its text. -/
  text : String
  deriving DecidableEq, Repr

/-- A declared fault. -/
structure Fault where
  /-- Its text. -/
  text : String
  deriving DecidableEq, Repr

namespace Key

/-- The kind of a key. -/
def kind : Key → Kind
  | .node _ => .node
  | .input _ => .input

/-- The key that a text denotes: an input if it starts with an at sign, a node otherwise. -/
def ofText (text : String) : Key :=
  match text.toList with
  | '@' :: name => .input (String.ofList name)
  | _ => .node text

/-- A key as text. -/
def text : Key → String
  | .node name => name
  | .input name => "@" ++ name

/-- A key as JSON. -/
def toJson : Key → Json
  | .node name => .object [("Node", .text name)]
  | .input name => .object [("Input", .text name)]

instance : Inspect Key where
  term
    | .node name => .call "Node" [.text name]
    | .input name => .call "Input" [.text name]

end Key

namespace Kind

/-- The name of a kind. -/
def name : Kind → String
  | .node => "Node"
  | .input => "Input"

instance : Inspect Kind := ⟨fun kind => .word kind.name⟩

end Kind

instance : Inspect Value := ⟨fun v => .call "Value" [.text v.text]⟩

instance : Inspect Fault := ⟨fun e => .call "Fault" [.text e.text]⟩

instance : ToString Fault := ⟨Fault.text⟩

/-- A text without its remark. -/
def stem (text : String) : List Char := text.toList.takeWhile fun c => c != '#'

/-- Whether two texts count as the same. -/
def sameText (a b : String) : Bool := !("nan".toList.isPrefixOf a.toList) && stem a == stem b

/-- The content of a slot. -/
abbrev Cell : Slot → Type
  | .number => Nat
  | .text => String

/-- The content of a slot at first. -/
def blank : (slot : Slot) → Cell slot
  | .number => (0 : Nat)
  | .text => ""

/-- The domain of scripted computations. -/
abbrev domain : Domain where
  Key := Key
  Value := Value
  Fault := Fault
  Kind := Kind
  Slot := Slot
  Cell := Cell
  kindOf := Key.kind
  blank := blank
  sameValue a b := sameText a.text b.text
  sameFault a b := sameText a.text b.text
  decKey := inferInstance
  decKind := inferInstance
  decSlot := inferInstance

end MemoGraph.Script
