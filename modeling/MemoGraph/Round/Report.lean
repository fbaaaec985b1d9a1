import MemoGraph.Round.Run

/-!
# Rounds: the report

At the end of a round every complete root shows its value or its failure.  A root that the round did
not complete, because it stopped at the first failure, shows the first failed key found below it as
seen from the root.
-/

set_option autoImplicit false

namespace MemoGraph

variable {D : Domain}

/-- The result of a round. -/
structure Report (D : Domain) where
  /-- The version of the round. -/
  version : Version
  /-- The requested keys, each once. -/
  roots : List D.Key
  /-- Roots with a value. -/
  values : Table D.Key D.Value
  /-- Roots with a failure. -/
  failures : Table D.Key (Failure D.Key D.Fault)
  /-- Cycles found in this round or behind the failure of a root. -/
  cycles : List (Cycle D.Key)

namespace Report

/-- Whether a root failed. -/
def hasFailure (p : Report D) : Bool := !p.failures.isEmpty

end Report

section Descent

variable {K E : Type} [DecidableEq K]

/-- Search depth first, the last child first, for a key with a child that `hit` accepts.  The
stack holds open ends, each a key with the keys above it, nearest first.  Yields the chain from the
start down to the key, and the first hit among its children. -/
def descend (next : K → List K) (hit : K → Option E) (fresh : List K)
    (stack : List (K × List K)) : Option (List K × E) :=
  match stack with
  | [] => none
  | (k, above) :: below =>
      if _h : k ∈ fresh then
        match (next k).findSome? hit with
        | some e => some ((k :: above).reverse, e)
        | none =>
            descend next hit (without fresh k)
              ((next k).reverse.map (fun child => (child, k :: above)) ++ below)
      else descend next hit fresh below
termination_by (fresh.length, stack.length)
decreasing_by
  · exact Prod.Lex.left _ _ (length_without_lt _h)
  · exact Prod.Lex.right _ (by simp)

end Descent

namespace Round

/-- Everything a key under evaluation requested or waited for in this round. -/
def demanded (r : Round D) (k : D.Key) : List D.Key :=
  match r.tasks.get? k with
  | some t => ((OrderedSet.ofList t.requested.keys).insertAll t.awaited.toList).toList
  | none => []

/-- The failure reported for a root that was not completed: the first failed key found below it,
seen from the root. -/
def failureBelow (r : Round D) (root : D.Key) : Option (Failure D.Key D.Fault) :=
  (descend r.demanded (fun dep => (r.graph.node dep).failure?) r.tasks.keys [(root, [])]).map
    fun (chain, child) => .seenAlong chain child

/-- What a root shows at the end of the round. -/
def outcome? (r : Round D) (root : D.Key) : Option (Outcome D) :=
  match (r.graph.node root).settled? with
  | some o => some o
  | none => (r.failureBelow root).map .failure

/-- The roots and what they show, as far as `pick` wants it. -/
def collect {α : Type} (s : Setting D) (r : Round D) (pick : Outcome D → Option α) :
    Table D.Key α :=
  .ofList (s.roots.toList.filterMap fun root =>
    ((r.outcome? root).bind pick).map fun a => (root, a))

/-- The result of a round that was neither given up nor stopped. -/
def report (s : Setting D) (r : Round D) : Report D :=
  let failures := r.collect s Outcome.failure?
  { version := s.version
    roots := s.roots.toList
    values := r.collect s Outcome.value?
    failures := failures
    cycles := (OrderedSet.ofList
      (r.cycles ++ failures.entries.flatMap fun e => e.2.cycles)).toList }

/-- How a round that is over ended: given up, stopped as it was asked to, or with its report. -/
def verdict (s : Setting D) (r : Round D) : Except (Abort D.Key) (Report D) :=
  match r.aborted with
  | some a => .error a
  | none => if r.interrupted then .error .interrupted else .ok (r.report s)

end Round

end MemoGraph
