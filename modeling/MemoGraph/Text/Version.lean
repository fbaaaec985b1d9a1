import MemoGraph.Domain
import MemoGraph.Text.Json.Reader
import MemoGraph.Text.Term

/-!
# The text of versions

A version reads as `v` and its number, in diagnostic text as a constructor, in JSON as a number.
-/

set_option autoImplicit false

namespace MemoGraph.Version

/-- A version as text. -/
def text (v : Version) : String := "v" ++ toString v

/-- A version as a term. -/
def term (v : Version) : Term := .call "Version" [Inspect.term v]

/-- The version that a JSON text denotes. -/
def ofText? (text : String) : Option Version :=
  (Json.Document.ofText? text).bind Json.Document.count64?

end MemoGraph.Version
