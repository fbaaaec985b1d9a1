import MemoGraph.Cycle.Reporter
import MemoGraph.Failure

/-!
# The text of failures

A failure reads as its declared fault or as a count of cycles.  A propagated one also names the
keys that caused it.
-/

set_option autoImplicit false

namespace MemoGraph

namespace Origin

/-- The name of an origin. -/
def name : Origin → String
  | .own => "Own"
  | .propagated => "Propagated"

end Origin

namespace Failure

variable {K E : Type}

instance [Inspect K] [Inspect E] : Inspect (Failure K E) where
  term e := .record "ErrorInfo" [("error", Inspect.term e.fault),
    ("root_causes", Inspect.term e.rootCauses), ("cycles", Inspect.term e.cycles),
    ("origin", .word e.origin.name)]

/-- What failed: the declared fault or the number of cycles. -/
def headline [ToString E] (e : Failure K E) : String :=
  match e.fault with
  | some fault => toString fault
  | none => toString e.cycles.length ++ " dependency cycle(s)"

/-- The text of a failure. -/
def message [Inspect K] [ToString E] (e : Failure K E) : String :=
  if e.isOwn || e.rootCauses.toList.isEmpty then e.headline
  else e.headline ++ " (caused by " ++ inspect e.rootCauses.toList ++ ")"

end Failure

end MemoGraph
