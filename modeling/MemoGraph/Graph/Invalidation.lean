import MemoGraph.Graph
import MemoGraph.Reach

/-!
# Invalidation and deletion

Between rounds, callers report which keys changed.  Completed keys among them are marked changed,
and every complete key that reads one of them, directly or through other complete keys, is marked
dirty.  Nothing is computed here: dirty nodes are checked when a later round requests them.  A walk
stops at nodes that are not complete, because their readers were dirtied when they were.

Deletion removes the chosen keys together with everything that reads them.
-/

set_option autoImplicit false

namespace MemoGraph

variable {D : Domain}

/-- What an invalidation touched. -/
structure Sweep (D : Domain) where
  /-- Keys that were complete and are now marked changed. -/
  changed : List D.Key
  /-- Keys that were complete and are now marked dirty. -/
  dirtied : List D.Key

/-- How many keys an invalidation or a deletion touched. -/
structure Stats where
  /-- Keys marked changed. -/
  changed : Nat
  /-- Keys marked dirty. -/
  dirtied : Nat
  /-- Keys removed from the graph. -/
  deleted : Nat
  deriving DecidableEq, Repr

/-- The numbers of a deletion that removed the given keys. -/
def Stats.ofRemoved {K : Type} (removed : List K) : Stats :=
  { changed := 0, dirtied := 0, deleted := removed.length }

namespace Sweep

/-- The numbers of an invalidation. -/
def stats (sweep : Sweep D) : Stats :=
  { changed := sweep.changed.length, dirtied := sweep.dirtied.length, deleted := 0 }

/-- What observers of an invalidation are told: every key that lost its trust, and whether it was
marked changed. -/
def notices (sweep : Sweep D) : List (D.Key × Bool) :=
  sweep.changed.map (fun k => (k, true)) ++ sweep.dirtied.map fun k => (k, false)

end Sweep

namespace Graph

/-- The keys that read a key. -/
def readers (g : Graph D) (k : D.Key) : List D.Key := (g.node k).rdeps.toList

/-- The complete keys. -/
def trusted (g : Graph D) : List D.Key := g.keys.filter g.isComplete

/-- Mark keys changed and everything that depends on them dirty. -/
def invalidate (g : Graph D) (keys : List D.Key) : Graph D × Sweep D :=
  let changed := (OrderedSet.ofList (keys.filter g.isComplete)).toList
  let struck := keys.foldl strike g
  let dirtied := reach struck.readers struck.trusted (changed.flatMap struck.readers)
  (dirtied.foldl soil struck, { changed, dirtied })

/-- The known keys that pass a test, and all that read them directly or indirectly. -/
def closure (g : Graph D) (p : D.Key → Bool) : List D.Key :=
  reach g.readers g.keys (g.keys.filter p)

/-- Remove the keys that pass a test and everything that depends on them; yields the removed
keys. -/
def delete (g : Graph D) (p : D.Key → Bool) : Graph D × List D.Key :=
  let doomed := g.closure p
  (doomed.foldl remove g, doomed)

end Graph

end MemoGraph
