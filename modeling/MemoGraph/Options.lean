import MemoGraph.Text.Blank
import MemoGraph.Text.Json
import MemoGraph.Text.Json.Reader

/-!
# Options of a round

Whether to keep going after a failure and how many workers to use.  Workers form a `Crew`, and the
steps of several of them may come in any order.  A single one processes the queued keys in turn; a
`Round` says the same with one step for each action.
Options are read from JSON, as an object or as an array of positions, or from environment variables
over the defaults.
-/

set_option autoImplicit false

namespace MemoGraph

/-- How a round runs. -/
structure Options where
  /-- Go on with independent work after a failure. -/
  keepGoing : Bool := false
  /-- Number of workers, 0 for as many as the machine offers. -/
  threads : Nat := 0
  deriving DecidableEq, Repr

namespace Options

/-- The number of workers, unless the machine has to be asked. -/
def fixedThreads? (o : Options) : Option Nat := if o.threads = 0 then none else some o.threads

/-- Options as JSON. -/
def toJson (o : Options) : Json :=
  .object [("keep_going", .bool o.keepGoing), ("num_threads", .number o.threads)]

/-! ## From JSON -/

/-- The members met so far while reading an object. -/
structure Draft where
  /-- The value of `keep_going`. -/
  keepGoing : Option Bool := none
  /-- The value of `num_threads`. -/
  threads : Option Nat := none

/-- Take in one member.  Unknown members are ignored, a repeated one is refused. -/
def Draft.member? (p : Draft) (name : String) (value : Json.Document) : Option Draft :=
  match name, p.keepGoing, p.threads with
  | "keep_going", none, _ => value.bool?.map fun b => { p with keepGoing := some b }
  | "keep_going", some _, _ => none
  | "num_threads", _, none => value.count64?.map fun n => { p with threads := some n }
  | "num_threads", _, some _ => none
  | _, _, _ => some p

/-- Take in members in order. -/
def Draft.members? : Draft → List (List Nat × Json.Document) → Option Draft
  | p, [] => some p
  | p, (units, value) :: rest => do
      let name ← Json.textOf? units
      let p ← p.member? name value
      p.members? rest

/-- Options of a JSON value: an object with any of the two members, or an array of at most two
positions. -/
def ofDocument? : Json.Document → Option Options
  | .object members => do
      let p ← Draft.members? {} members
      return { keepGoing := p.keepGoing.getD false, threads := p.threads.getD 0 }
  | .array [] => some {}
  | .array [keepGoing] => do
      return { keepGoing := ← keepGoing.bool? }
  | .array [keepGoing, threads] => do
      return { keepGoing := ← keepGoing.bool?, threads := ← threads.count64? }
  | _ => none

/-- Options of a JSON text. -/
def ofText? (text : String) : Option Options := (Json.Document.ofText? text).bind ofDocument?

/-! ## From the environment -/

/-- The variable that sets the number of workers. -/
def threadsVariable : String := "SKYGRAPH_THREADS"

/-- The variable that sets whether to keep going. -/
def keepGoingVariable : String := "SKYGRAPH_KEEP_GOING"

/-- A number of workers: digits with an optional plus sign, blanks around them. -/
def threadsOf? (text : String) : Option Nat :=
  match Text.trim text.toList with
  | '+' :: digits => Text.count64? digits
  | digits => Text.count64? digits

/-- A flag in one of its spellings, in either case, blanks around it. -/
def flagOf? (text : String) : Option Bool :=
  let word := String.ofList ((Text.trim text.toList).map Char.toLower)
  if word ∈ ["1", "true", "yes", "on"] then some true
  else if word ∈ ["0", "false", "no", "off"] then some false
  else none

/-- The defaults overridden by the variables that are set; texts that cannot be read are
ignored. -/
def ofEnvironment (lookup : String → Option String) : Options :=
  { keepGoing := ((lookup keepGoingVariable).bind flagOf?).getD false
    threads := ((lookup threadsVariable).bind threadsOf?).getD 0 }

end Options

end MemoGraph
