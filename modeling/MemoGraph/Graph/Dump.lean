import MemoGraph.Failure.Message
import MemoGraph.Graph
import MemoGraph.Text.Version

/-!
# Dumps of the graph

A dump lists every node and every edge once, in the order of the diagnostic text of the keys, so
it does not depend on the order in which the graph holds them.
-/

set_option autoImplicit false

namespace MemoGraph

variable {D : Domain}

namespace NodeState

/-- The name of a state. -/
def name : NodeState → String
  | .new => "New"
  | .dirty => "Dirty"
  | .changed => "Changed"
  | .done => "Done"
  | .failed => "Error"

end NodeState

/-- Keys in the order of their diagnostic text. -/
def sortKeys {K : Type} [Inspect K] (keys : List K) : List K :=
  keys.mergeSort fun a b => decide (inspect a ≤ inspect b)

/-- One node of a dump. -/
structure DumpRow (D : Domain) where
  /-- The key. -/
  key : D.Key
  /-- Its state. -/
  state : NodeState
  /-- The version at which its outcome last changed. -/
  changedAt : Version
  /-- The version at which it was last built or verified. -/
  evaluatedAt : Version
  /-- Its dependency groups. -/
  deps : List (List D.Key)
  /-- Its reverse dependencies, sorted. -/
  rdeps : List D.Key
  /-- The stored value, trusted or not. -/
  value : Option D.Value
  /-- The stored failure, trusted or not. -/
  failure : Option (Failure D.Key D.Fault)

namespace Graph

variable [Inspect D.Key]

/-- The dump row of a key. -/
def dumpRow (g : Graph D) (k : D.Key) : DumpRow D :=
  let n := g.node k
  { key := k, state := n.state, changedAt := n.changedAt, evaluatedAt := n.evaluatedAt,
    deps := n.deps.groups, rdeps := sortKeys n.rdeps.toList, value := n.lastValue?,
    failure := n.lastFailure? }

/-- Every node of the graph, sorted. -/
def dump (g : Graph D) : List (DumpRow D) := (sortKeys g.keys).map g.dumpRow

end Graph

namespace DumpRow

variable [Inspect D.Key] [Inspect D.Value] [ToString D.Fault]

/-- The diagnostic text of the stored value. -/
def valueText? (row : DumpRow D) : Option String := row.value.map inspect

/-- The text of the stored failure. -/
def failureText? (row : DumpRow D) : Option String := row.failure.map Failure.message

/-- A row as JSON, given the JSON of its keys. -/
def toJson (keyJson : D.Key → Json) (row : DumpRow D) : Json :=
  let textOrNull (text : Option String) : Json :=
    match text with
    | some text => .text text
    | none => .null
  .object [("key", keyJson row.key), ("state", .text row.state.name),
    ("changed_at", .number row.changedAt), ("evaluated_at", .number row.evaluatedAt),
    ("deps", .array (row.deps.map fun group => .array (group.map keyJson))),
    ("rdeps", .array (row.rdeps.map keyJson)), ("value", textOrNull row.valueText?),
    ("error", textOrNull row.failureText?)]

end DumpRow

namespace Graph

variable [Inspect D.Key] [Inspect D.Value] [ToString D.Fault]

/-- The dump as JSON, spread over lines. -/
def dumpText (keyJson : D.Key → Json) (g : Graph D) : String :=
  (Json.object [("nodes", .array (g.dump.map (DumpRow.toJson keyJson)))]).pretty

end Graph

namespace Node

/-- The diagnostic term of the node of a key: edges are only counted. -/
def term [Inspect D.Key] (k : D.Key) (n : Node D) : Term :=
  .record "NodeEntry" [("key", Inspect.term k), ("state", .word n.state.name),
    ("changed_at", Version.term n.changedAt),
    ("evaluated_at", Version.term n.evaluatedAt),
    ("deps", Inspect.term n.deps.size), ("rdeps", Inspect.term n.rdeps.size)]

end Node

end MemoGraph
