import MemoGraph.Cycle
import MemoGraph.Text.Json
import MemoGraph.Text.Term

/-!
# Explaining cycles

A cycle is explained by the first describer that has something to say about it, and otherwise by a
drawing: the path, then the members between a pair of corners that return to the first member.
-/

set_option autoImplicit false

namespace MemoGraph

namespace Cycle

variable {K : Type}

instance [Inspect K] : Inspect (Cycle K) where
  term c := .record "CycleInfo" [("path_to_cycle", Inspect.term c.path),
    ("cycle", Inspect.term c.members)]

/-- A cycle as JSON, given the JSON of its keys. -/
def toJson (keyJson : K → Json) (c : Cycle K) : Json :=
  .object [("path_to_cycle", .array (c.path.map keyJson)),
    ("cycle", .array (c.members.map keyJson))]

/-- One line of a drawing: a margin and a key. -/
def line [Inspect K] (margin : String) (k : K) : String := margin ++ inspect k ++ "\n"

/-- The drawing of the members. -/
def drawMembers [Inspect K] : List K → String
  | [] => ""
  | first :: rest =>
      line ".-> " first ++ String.join (rest.map (line "|   ")) ++ line "\x60-- " first

/-- The drawing of a cycle. -/
def draw [Inspect K] (c : Cycle K) : String :=
  "cycle in dependency graph:\n" ++ String.join (c.path.map (line "    ")) ++ drawMembers c.members

/-- Explains some cycles. -/
abbrev Describer (K : Type) : Type := Cycle K → Option String

/-- Explains the cycles that pass a test, always with the same text. -/
def describeWhen (test : Cycle K → Bool) (text : String) : Describer K := fun c =>
  if test c then some text else none

/-- The explanation of a cycle. -/
def describe [Inspect K] (describers : List (Describer K)) (c : Cycle K) : String :=
  (describers.findSome? fun describer => describer c).getD c.draw

end Cycle

end MemoGraph
