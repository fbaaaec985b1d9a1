import MemoGraph.Cycle
import MemoGraph.Reach

/-!
# Finding cycles

A depth-first walk over the edges of a finite graph, with an explicit stack.  The stack is a list
of frames, deepest first: an open key and the edges out of it that are still to be followed.
Meeting a key that is open closes a cycle; the open keys above it form the path that led there.
Each key is expanded at most once over all roots: expanding takes it out of the fresh keys.
-/

set_option autoImplicit false

namespace MemoGraph

namespace Cycle

variable {K : Type} [DecidableEq K]

/-- The cycle closed by an edge from the deepest open key back to the open key `k`. -/
def close (frames : List (K × List K)) (k : K) : Cycle K :=
  let opened := (frames.map Prod.fst).reverse
  { path := opened.takeWhile fun k' => decide (k' ≠ k)
    members := opened.dropWhile fun k' => decide (k' ≠ k) }

/-- Steps that the frames alone can take: one for each edge to follow and one to close each. -/
def stepsLeft : List (K × List K) → Nat
  | [] => 0
  | frame :: below => frame.2.length + 1 + stepsLeft below

/-- Follow the edges of all frames; yields the cycles closed and the keys still fresh. -/
def walk (next : K → List K) (fresh : List K) (frames : List (K × List K)) :
    List (Cycle K) × List K :=
  match frames with
  | [] => ([], fresh)
  | (_, []) :: below => walk next fresh below
  | (k, child :: rest) :: below =>
      if child ∈ ((k, rest) :: below).map Prod.fst then
        let (found, left) := walk next fresh ((k, rest) :: below)
        (close ((k, rest) :: below) child :: found, left)
      else if _h : child ∈ fresh then
        walk next (without fresh child) ((child, next child) :: (k, rest) :: below)
      else
        walk next fresh ((k, rest) :: below)
termination_by (fresh.length, stepsLeft frames)
decreasing_by
  · exact Prod.Lex.right _ (by simp only [stepsLeft, List.length_nil]; omega)
  · exact Prod.Lex.right _ (by simp only [stepsLeft, List.length_cons]; omega)
  · exact Prod.Lex.left _ _ (length_without_lt _h)
  · exact Prod.Lex.right _ (by simp only [stepsLeft, List.length_cons]; omega)

/-- Walk from each root that is still fresh; keys outside `domain` are never expanded. -/
def findFrom (next : K → List K) : (fresh roots : List K) → List (Cycle K)
  | _, [] => []
  | fresh, root :: rest =>
      if root ∈ fresh then
        let (found, left) := walk next (without fresh root) [(root, next root)]
        found ++ findFrom next left rest
      else
        findFrom next fresh rest

/-- Every cycle closed by a back edge on a depth-first walk from `roots` within `domain`. -/
def find (next : K → List K) (domain roots : List K) : List (Cycle K) :=
  findFrom next domain roots

end Cycle

end MemoGraph
