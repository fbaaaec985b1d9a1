/-!
# Writing JSON

A `Json` value is written compactly on one line or spread over lines with two spaces for each
level.  Quotes and backslashes are escaped, control characters are written by their letter or by
four hexadecimal digits, all else stands literally.
-/

set_option autoImplicit false

namespace MemoGraph

/-- A value to be written as JSON. -/
inductive Json where
  /-- the absent value -/
  | null
  /-- a truth value -/
  | bool (b : Bool)
  /-- a count -/
  | number (n : Nat)
  /-- a text -/
  | text (content : String)
  /-- a sequence -/
  | array (items : List Json)
  /-- named members in order -/
  | object (members : List (String × Json))

namespace Json

/-- The letter of a control character that has one. -/
def letter? : Char → Option Char
  | '"' => some '"'
  | '\\' => some '\\'
  | '\n' => some 'n'
  | '\r' => some 'r'
  | '\t' => some 't'
  | '\x08' => some 'b'
  | '\x0c' => some 'f'
  | _ => none

/-- A number with four hexadecimal digits. -/
def hex4 (n : Nat) : List Char :=
  let digits := Nat.toDigits 16 n
  List.replicate (4 - digits.length) '0' ++ digits

/-- One character as it stands in a JSON text. -/
def escape (c : Char) : List Char :=
  match letter? c with
  | some l => ['\\', l]
  | none => if c.toNat < 0x20 then ['\\', 'u'] ++ hex4 c.toNat else [c]

/-- A text in quotes. -/
def quote (text : String) : String :=
  "\"" ++ String.ofList (text.toList.flatMap escape) ++ "\""

mutual

/-- JSON on one line, without spaces. -/
def compact : Json → String
  | .null => "null"
  | .bool b => toString b
  | .number n => toString n
  | .text content => quote content
  | .array items => "[" ++ String.intercalate "," (compactAll items) ++ "]"
  | .object members => "\x7b" ++ String.intercalate "," (compactMembers members) ++ "\x7d"

/-- Items of a compact array. -/
def compactAll : List Json → List String
  | [] => []
  | item :: rest => item.compact :: compactAll rest

/-- Members of a compact object. -/
def compactMembers : List (String × Json) → List String
  | [] => []
  | (name, value) :: rest => (quote name ++ ":" ++ value.compact) :: compactMembers rest

end

/-- A line break and the indentation of a level. -/
def newline (level : Nat) : String := "\n" ++ String.ofList (List.replicate (2 * level) ' ')

/-- Parts between brackets, each on a line of its own one level deeper; nothing between the
brackets if there are no parts. -/
def spread (opening closing : String) (level : Nat) (parts : List String) : String :=
  if parts.isEmpty then opening ++ closing
  else opening ++ newline (level + 1) ++ String.intercalate ("," ++ newline (level + 1)) parts ++
    newline level ++ closing

mutual

/-- JSON spread over lines, starting at the given level. -/
def prettyAt (level : Nat) : Json → String
  | .array items => spread "[" "]" level (prettyAll (level + 1) items)
  | .object members => spread "\x7b" "\x7d" level (prettyMembers (level + 1) members)
  | .null => "null"
  | .bool b => toString b
  | .number n => toString n
  | .text content => quote content

/-- Items of a spread array. -/
def prettyAll (level : Nat) : List Json → List String
  | [] => []
  | item :: rest => item.prettyAt level :: prettyAll level rest

/-- Members of a spread object. -/
def prettyMembers (level : Nat) : List (String × Json) → List String
  | [] => []
  | (name, value) :: rest =>
      (quote name ++ ": " ++ value.prettyAt level) :: prettyMembers level rest

end

/-- JSON spread over lines. -/
def pretty (value : Json) : String := value.prettyAt 0

end Json

end MemoGraph
