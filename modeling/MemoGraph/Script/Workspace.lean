import MemoGraph.Crew.Run
import MemoGraph.Cycle.Reporter
import MemoGraph.Options
import MemoGraph.Script.Step

/-!
# Workspaces

A workspace is a session whose functions are scripts.  Scripts can be replaced at any time; the
session learns of a replacement only if the key is invalidated as well.
-/

set_option autoImplicit false

namespace MemoGraph.Script

/-- Keys in the order of their texts. -/
def sortByText (keys : List Key) : List Key := keys.mergeSort fun a b => decide (a.text ≤ b.text)

/-- Whether a key is listed, or its text begins with the given one. -/
def chosen (keys : List Key) (start : Option String) (k : Key) : Bool :=
  decide (k ∈ keys) ||
    match start with
    | some start => start.toList.isPrefixOf k.text.toList
    | none => false

/-- A session together with the scripts it runs. -/
structure Workspace where
  /-- The script of each key. -/
  scripts : Table Key (List Step)
  /-- The kinds that have a function. -/
  kinds : List Kind
  /-- What explains cycles. -/
  describers : List (Cycle.Describer Key)
  /-- The session. -/
  session : Session domain

namespace Workspace

/-- A workspace with an empty graph. -/
def new (scripts : Table Key (List Step)) (kinds : List Kind)
    (describers : List (Cycle.Describer Key)) : Workspace :=
  { scripts, kinds, describers, session := Session.new (registry kinds scripts) }

/-- Replace the script of a key. -/
def setScript (w : Workspace) (k : Key) (steps : List Step) : Workspace :=
  let scripts := w.scripts.insert k steps
  { w with scripts := scripts, session := w.session.program (registry w.kinds scripts) }

/-- Replace the script of a key and invalidate the key. -/
def change (w : Workspace) (k : Key) (steps : List Step) : Workspace × Sweep domain :=
  let w := w.setScript k steps
  let (session, sweep) := w.session.invalidate [k]
  ({ w with session := session }, sweep)

/-- The steps allowed to a round, far more than a round over a graph in memory takes. -/
def budget : Nat := 1000000000000

/-- Replace the graph. -/
def withGraph (w : Workspace) (graph : Graph domain) : Workspace :=
  { w with session := { w.session with graph := graph } }

/-- The number of workers that a machine offers. -/
def machineWorkers : Nat := 4

/-- Which of several workers takes the turn when `n` turns are left.  Any order would do. -/
def schedule (workers n : Nat) : Nat := (n * n + n / 3) % workers

/-- Run a round with as many workers as the options say; a positive `interruptAt` asks it to stop
right after that many events. -/
def evaluate (w : Workspace) (roots : List Key) (options : Options) (interruptAt : Nat) :
    Option (Workspace × Evaluation domain) :=
  let observer (log : List (Event domain)) : Bool := log.length == interruptAt
  let workers := options.fixedThreads?.getD machineWorkers
  let result :=
    if workers = 1 then w.session.evaluate budget roots options.keepGoing observer
    else w.session.evaluateWith budget workers (schedule workers) roots options.keepGoing observer
  result.map fun (session, evaluation) => ({ w with session := session }, evaluation)

/-- The explanation of a cycle. -/
def describe (w : Workspace) (c : Cycle Key) : String := c.describe w.describers

/-- Calls of each function so far, sorted by the text of the keys. -/
def callCounts (w : Workspace) : List (Key × Nat) :=
  w.session.calls.entries.mergeSort fun a b => decide (a.1.text ≤ b.1.text)

end Workspace

end MemoGraph.Script
