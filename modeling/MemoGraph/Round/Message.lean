import MemoGraph.Failure.Message
import MemoGraph.Round.Report
import MemoGraph.Text.Version

/-!
# The text of verdicts

Every reason to give a round up has a name and a text, and reports and reasons have a diagnostic
text.
-/

set_option autoImplicit false

namespace MemoGraph

namespace Payload

/-- The text of a payload. -/
def message : Payload → String
  | .literal message => message
  | .composed message => message
  | .code _ => "non-string panic payload"

/-- What is raised in place of a payload that was taken out before. -/
def taken : Payload := .literal "panic payload already taken"

end Payload

namespace Abort

variable {K : Type}

/-- The name of a reason. -/
def name : Abort K → String
  | .crashed _ _ => "FunctionPanicked"
  | .missingFunction _ => "MissingFunction"
  | .valueWithMissingDeps _ => "ValueWithMissingDeps"
  | .noProgress _ => "NoProgress"
  | .interrupted => "Interrupted"

/-- The key that a reason is about. -/
def key? : Abort K → Option K
  | .crashed k _ => some k
  | .missingFunction k => some k
  | .valueWithMissingDeps k => some k
  | .noProgress k => some k
  | .interrupted => none

/-- What a crashing function left behind. -/
def payload? : Abort K → Option Payload
  | .crashed _ payload => some payload
  | _ => none

/-- Raise again what a crashing function left behind, if it is still there; any other reason is
returned. -/
def reraise (a : Abort K) (isTaken : Bool) : Except Payload (Abort K) :=
  match a.payload? with
  | some payload => .error (if isTaken then .taken else payload)
  | none => .ok a

/-- The text of a reason. -/
def message [Inspect K] : Abort K → String
  | .crashed k payload => "function for " ++ inspect k ++ " panicked: " ++ payload.message
  | .missingFunction k => "no function registered for " ++ inspect k
  | .valueWithMissingDeps k =>
      "function for " ++ inspect k ++ " returned a value while dependencies were missing"
  | .noProgress k =>
      "function for " ++ inspect k ++
        " returned no value and requested no missing dependencies"
  | .interrupted => "evaluation interrupted"

instance [Inspect K] : Inspect (Abort K) where
  term a :=
    match a.key?, a.payload? with
    | none, _ => .word a.name
    | some k, none => .record a.name [("key", Inspect.term k)]
    | some k, some payload => .record a.name [("key", Inspect.term k),
        ("message", .text payload.message), ("payload", .word "PanicPayload(..)")]

end Abort

namespace Report

variable {D : Domain}

instance [Inspect D.Key] [Inspect D.Value] [Inspect D.Fault] : Inspect (Report D) where
  term p := .record "EvaluationResult" [("version", Version.term p.version),
    ("roots", Inspect.term p.roots), ("values", Inspect.term p.values),
    ("errors", Inspect.term p.failures), ("cycles", Inspect.term p.cycles)]

end Report

end MemoGraph
