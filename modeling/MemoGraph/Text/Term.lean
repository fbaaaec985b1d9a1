import MemoGraph.OrderedSet
import MemoGraph.Table
import MemoGraph.Text.Quoted

/-!
# Terms

Diagnostic text shows a value as a term on one line: a word, a quoted text, a constructor with its
arguments or with named fields, a list, a set or a map.  A type says how its values read as terms
by an instance of `Inspect`.
-/

set_option autoImplicit false

namespace MemoGraph

/-- A value as diagnostic text shows it. -/
inductive Term where
  /-- a word or a number -/
  | word (text : String)
  /-- a text, shown in quotes -/
  | text (content : String)
  /-- a constructor and its arguments -/
  | call (name : String) (arguments : List Term)
  /-- a constructor and its named fields -/
  | record (name : String) (fields : List (String × Term))
  /-- a list -/
  | list (items : List Term)
  /-- a set -/
  | set (items : List Term)
  /-- a map -/
  | map (rows : List (Term × Term))

namespace Term

/-- Texts separated by a comma and a space. -/
def commaSeparated (parts : List String) : String := String.intercalate ", " parts

mutual

/-- The text of a term. -/
def render : Term → String
  | .word w => w
  | .text content => Text.quote content
  | .call name arguments => name ++ "(" ++ commaSeparated (renderAll arguments) ++ ")"
  | .record name fields => name ++ " \x7b " ++ commaSeparated (renderFields fields) ++ " \x7d"
  | .list items => "[" ++ commaSeparated (renderAll items) ++ "]"
  | .set items => "\x7b" ++ commaSeparated (renderAll items) ++ "\x7d"
  | .map rows => "\x7b" ++ commaSeparated (renderRows rows) ++ "\x7d"

/-- The texts of several terms. -/
def renderAll : List Term → List String
  | [] => []
  | t :: rest => t.render :: renderAll rest

/-- Fields as a name, a colon and a term. -/
def renderFields : List (String × Term) → List String
  | [] => []
  | (name, t) :: rest => (name ++ ": " ++ t.render) :: renderFields rest

/-- Rows as a key, a colon and a value. -/
def renderRows : List (Term × Term) → List String
  | [] => []
  | (k, v) :: rest => (k.render ++ ": " ++ v.render) :: renderRows rest

end

end Term

/-- How values of a type read as terms. -/
class Inspect (α : Type) where
  /-- The term of a value. -/
  term : α → Term

/-- The diagnostic text of a value. -/
def inspect {α : Type} [Inspect α] (a : α) : String := (Inspect.term a).render

instance : Inspect Nat := ⟨fun n => .word (toString n)⟩

instance : Inspect String := ⟨.text⟩

instance {α : Type} [Inspect α] : Inspect (List α) := ⟨fun items => .list (items.map Inspect.term)⟩

instance {α : Type} [Inspect α] : Inspect (OrderedSet α) :=
  ⟨fun items => .set (items.toList.map Inspect.term)⟩

instance {K V : Type} [Inspect K] [Inspect V] : Inspect (Table K V) :=
  ⟨fun rows => .map (rows.entries.map fun e => (Inspect.term e.1, Inspect.term e.2))⟩

instance {α : Type} [Inspect α] : Inspect (Option α) where
  term
    | none => .word "None"
    | some a => .call "Some" [Inspect.term a]

end MemoGraph
