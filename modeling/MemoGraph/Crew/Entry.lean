import MemoGraph.Round.Reading

/-!
# Entries of a store that several workers share

While a round runs, the entry of a key says whether the key is under evaluation, and keeps what the
round needs for it: the status the key had before, to which it goes back if the round ends without
completing it, and its task.  Every worker changes one entry at a time, under the lock of that
entry, so each function below is one step of one worker.
-/

set_option autoImplicit false

namespace MemoGraph

variable {D : Domain}

/-- Where a node stands: at rest with a status, or under evaluation. -/
inductive Phase where
  /-- not under evaluation -/
  | resting (status : Status)
  /-- scheduled in the running round and not complete yet -/
  | evaluating
  deriving DecidableEq, Repr

/-- What a round keeps in the entry of a key under evaluation. -/
structure Building (D : Domain) where
  /-- The status before the round touched the key. -/
  prior : Status
  /-- How the key is being brought up to date. -/
  task : Task D

/-- The record that workers share for one key. -/
structure Entry (D : Domain) where
  /-- Where the node stands. -/
  phase : Phase
  /-- The last outcome, kept until another one is published. -/
  outcome : Option (Outcome D)
  /-- Dependencies of the last completed evaluation. -/
  deps : DepGroups D.Key
  /-- The keys that list this one among their dependencies. -/
  rdeps : OrderedSet D.Key
  /-- The version at which the outcome last changed. -/
  changedAt : Version
  /-- The version at which the node was last built or verified. -/
  evaluatedAt : Version
  /-- What the running round keeps for the key. -/
  building : Option (Building D)

namespace Entry

/-- The entry of a node at rest. -/
def ofNode (n : Node D) : Entry D :=
  { phase := .resting n.status, outcome := n.outcome, deps := n.deps, rdeps := n.rdeps,
    changedAt := n.changedAt, evaluatedAt := n.evaluatedAt, building := none }

/-- The entry of a key that was never completed. -/
def fresh : Entry D := .ofNode .fresh

instance : Inhabited (Entry D) := ⟨fresh⟩

/-- The status as others see it: a key under evaluation cannot be trusted. -/
def status (e : Entry D) : Status :=
  match e.phase with
  | .resting status => status
  | .evaluating => .new

/-- The node as others see it. -/
def node (e : Entry D) : Node D :=
  { status := e.status, outcome := e.outcome, deps := e.deps, rdeps := e.rdeps,
    changedAt := e.changedAt, evaluatedAt := e.evaluatedAt }

/-- What the round keeps for the key. -/
def task? (e : Entry D) : Option (Task D) := e.building.map Building.task

/-- The keys to signal when the key completes. -/
def waiters (e : Entry D) : List D.Key :=
  match e.building with
  | some b => b.task.waiters.toList
  | none => []

/-- Whether the key comes under evaluation when it is asked for. -/
def begins (e : Entry D) : Bool :=
  match e.phase with
  | .resting status => decide (status ≠ .current)
  | .evaluating => false

/-- Bring the key under evaluation, unless it is complete or under evaluation already.  The status
it had is saved. -/
def begin (e : Entry D) : Entry D :=
  match e.phase with
  | .resting status =>
      if status = .current then e
      else { e with phase := .evaluating, building := some ⟨status, .start status⟩ }
  | .evaluating => e

/-- Undo an evaluation that did not complete. -/
def abandon (e : Entry D) : Entry D :=
  match e.building with
  | some b => { e with phase := .resting b.prior, building := none }
  | none => e

/-- Change what the round keeps for the key. -/
def retask (e : Entry D) (f : Task D → Task D) : Entry D :=
  { e with building := e.building.map fun b => { b with task := f b.task } }

/-- Enter a reader among the waiters; yields whether the reader is a new one. -/
def await (e : Entry D) (reader : D.Key) : Bool × Entry D :=
  match e.task? with
  | none => (false, e)
  | some t =>
      if reader ∈ t.waiters then (false, e)
      else (true, e.retask fun t => { t with waiters := t.waiters.insert reader })

/-- Complete the key with an outcome.  What the round kept for it is dropped. -/
def publish (e : Entry D) (o : Outcome D) (version : Version) : Entry D :=
  .ofNode (e.node.publish o version)

/-- Complete the key with the outcome it has.  What the round kept for it is dropped. -/
def confirm (e : Entry D) (version : Version) : Entry D := .ofNode (e.node.confirm version)

end Entry

/-- The entries of all keys. -/
structure Store (D : Domain) where
  /-- The entries in the order in which their keys first arrived. -/
  entries : Table D.Key (Entry D)

namespace Store

/-- The entries of a graph, all at rest. -/
def ofGraph (g : Graph D) : Store D := ⟨g.nodes.map Entry.ofNode⟩

/-- The graph as others see it. -/
def graph (st : Store D) : Graph D := ⟨st.entries.map Entry.node⟩

/-- Whether a key has an entry. -/
def contains (st : Store D) (k : D.Key) : Bool := st.entries.contains k

/-- The entry of a key, fresh for an unknown key. -/
def entry (st : Store D) (k : D.Key) : Entry D := (st.entries.get? k).getD Entry.fresh

/-- Replace the entry of a key, creating it if there is none. -/
def put (st : Store D) (k : D.Key) (e : Entry D) : Store D := ⟨st.entries.insert k e⟩

/-- Change the entry of a key, creating it if there is none. -/
def update (st : Store D) (k : D.Key) (f : Entry D → Entry D) : Store D :=
  st.put k (f (st.entry k))

/-- Change the entry of a known key; an unknown key stays unknown. -/
def adjust (st : Store D) (k : D.Key) (f : Entry D → Entry D) : Store D :=
  if st.contains k then st.update k f else st

/-- Make sure that a key has an entry. -/
def create (st : Store D) (k : D.Key) : Store D :=
  if st.contains k then st else st.put k Entry.fresh

/-- Undo the evaluations of some keys that did not complete. -/
def abandonAll (st : Store D) (keys : List D.Key) : Store D :=
  keys.foldl (fun st k => st.adjust k Entry.abandon) st

/-- The tasks of all keys under evaluation. -/
def tasks (st : Store D) : Table D.Key (Task D) :=
  ⟨st.entries.entries.filterMap fun e => e.2.task?.map fun t => (e.1, t), by
    refine List.Nodup.sublist ?_ st.entries.nodup
    generalize st.entries.entries = rows
    induction rows with
    | nil => exact .slnil
    | cons e rest ih =>
        rw [List.filterMap_cons]
        cases e.2.task? with
        | none => exact ih.cons _
        | some t => exact ih.cons_cons _⟩

end Store

end MemoGraph
