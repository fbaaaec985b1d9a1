import MemoGraph.Graph.Invalidation
import MemoGraph.Round.Report

/-!
# Sessions

A session owns what lives across rounds: the graph, the functions, the number of the last round,
the values waiting to be injected at the start of the next one, and the wish to stop.  Sessions
share nothing.
-/

set_option autoImplicit false

namespace MemoGraph

variable {D : Domain}

/-- What lives across rounds. -/
structure Session (D : Domain) where
  /-- Every node known so far. -/
  graph : Graph D
  /-- The functions. -/
  registry : Registry D
  /-- The version of the last round. -/
  version : Version
  /-- Values that take effect at the start of the next round. -/
  injections : Table D.Key D.Value
  /-- Whether a stop was asked for and not yet obeyed. -/
  interrupted : Bool
  /-- Invocations of each function so far. -/
  calls : Table D.Key Nat

/-- What a round shows to the caller. -/
structure Evaluation (D : Domain) where
  /-- The report, or why there is none. -/
  verdict : Except (Abort D.Key) (Report D)
  /-- The events of the round, in order. -/
  events : List (Event D)

namespace Session

/-- A session with an empty graph. -/
def new (registry : Registry D) : Session D :=
  { graph := ∅, registry := registry, version := .initial, injections := ∅, interrupted := false,
    calls := ∅ }

/-- Use other functions from now on. -/
def program (session : Session D) (registry : Registry D) : Session D :=
  { session with registry := registry }

/-- Ask the running or next round to stop. -/
def interrupt (session : Session D) : Session D := { session with interrupted := true }

/-- The graph with all pending injections applied. -/
def injectedGraph (session : Session D) (version : Version) : Graph D :=
  session.injections.entries.foldl (fun g e => g.inject e.1 e.2 version) session.graph

/-- What is fixed for the next round over `roots`. -/
def setting (session : Session D) (roots : List D.Key) (keepGoing : Bool)
    (observer : List (Event D) → Bool) : Setting D :=
  { registry := session.registry, version := session.version + 1, keepGoing := keepGoing,
    roots := .ofList roots, observer := observer }

/-- The round over `roots` as it starts.  A stop asked for between rounds is discarded. -/
def opening (session : Session D) (s : Setting D) : Round D :=
  Round.start s (session.injectedGraph s.version) session.calls

/-- The session after a round of one worker that is over.  A round that ended because it was stopped
has obeyed the wish to stop; one that was given up leaves it pending. -/
def closing (session : Session D) (s : Setting D) (r : Round D) : Session D :=
  { session with
    graph := r.graph
    version := s.version
    injections := ∅
    interrupted := r.aborted.isSome && r.interrupted
    calls := r.calls }

/-- Run one round of one worker at a fresh version; `none` if it takes more steps than the budget
allows. -/
def evaluate (session : Session D) (budget : Nat) (roots : List D.Key) (keepGoing : Bool)
    (observer : List (Event D) → Bool) : Option (Session D × Evaluation D) :=
  let s := session.setting roots keepGoing observer
  (Round.run s budget (session.opening s)).map fun r =>
    (session.closing s r, { verdict := r.verdict s, events := r.log.reverse })

/-- Mark keys and everything that depends on them for re-evaluation. -/
def invalidate (session : Session D) (keys : List D.Key) : Session D × Sweep D :=
  let (graph, sweep) := session.graph.invalidate keys
  ({ session with graph := graph }, sweep)

/-- Whether a key already holds a value, up to date. -/
def hasValue (session : Session D) (k : D.Key) (v : D.Value) : Bool :=
  match (session.graph.node k).value? with
  | some old => D.sameValue old v
  | none => false

/-- Set values from outside.  They take effect at the start of the next round; what depends on a
key with a different value is dirtied at once. -/
def inject (session : Session D) (values : List (D.Key × D.Value)) : Session D × Sweep D :=
  let differing := values.filter fun e => !session.hasValue e.1 e.2
  let injections := values.foldl (fun t e => t.insert e.1 e.2) session.injections
  { session with injections := injections }.invalidate (differing.map Prod.fst)

/-- Remove the keys that pass a test, and everything that depends on them.  Pending injections of
keys that pass the test are dropped; yields the removed keys. -/
def delete (session : Session D) (p : D.Key → Bool) : Session D × List D.Key :=
  let (graph, removed) := session.graph.delete p
  ({ session with
      graph := graph
      injections := session.injections.filterKeys fun k => !p k }, removed)

end Session

end MemoGraph
