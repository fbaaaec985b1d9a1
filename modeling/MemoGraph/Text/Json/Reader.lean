import MemoGraph.Text.Decimal

/-!
# Reading JSON

The reader accepts exactly one JSON value between blanks.  It keeps a number as its literal and a
string as a sequence of 16-bit units, because escapes may write units that pair up to no character;
`Document.text?` yields the text of a string whose units do.
-/

set_option autoImplicit false

namespace MemoGraph.Json

/-- A JSON value as it was read. -/
inductive Document where
  /-- the absent value -/
  | null
  /-- a truth value -/
  | bool (b : Bool)
  /-- a number, as written -/
  | number (literal : List Char)
  /-- a string, as 16-bit units -/
  | string (units : List Nat)
  /-- a sequence -/
  | array (items : List Document)
  /-- named members in order, repeated names included -/
  | object (members : List (List Nat × Document))

/-! ## 16-bit units -/

/-- The one or two units of a character. -/
def unitsOf (c : Char) : List Nat :=
  let n := c.toNat
  if n < 0x10000 then [n] else [0xd800 + (n - 0x10000) / 0x400, 0xdc00 + (n - 0x10000) % 0x400]

/-- The characters of a sequence of units; `none` if a surrogate stands without its partner. -/
def charsOf? : List Nat → Option (List Char)
  | [] => some []
  | [n] => if 0xd800 ≤ n ∧ n < 0xe000 then none else some [Char.ofNat n]
  | n :: m :: rest =>
      if 0xd800 ≤ n ∧ n < 0xdc00 then
        if 0xdc00 ≤ m ∧ m < 0xe000 then
          (charsOf? rest).map
            (Char.ofNat (0x10000 + (n - 0xd800) * 0x400 + (m - 0xdc00)) :: ·)
        else none
      else if 0xdc00 ≤ n ∧ n < 0xe000 then none
      else (charsOf? (m :: rest)).map (Char.ofNat n :: ·)

/-- The text of a sequence of units. -/
def textOf? (units : List Nat) : Option String := (charsOf? units).map String.ofList

/-! ## Tokens -/

/-- Whether a character may stand between tokens. -/
def isSpace (c : Char) : Bool := c == ' ' || c == '\t' || c == '\n' || c == '\r'

/-- The rest after blanks. -/
def skipSpace (input : List Char) : List Char := input.dropWhile isSpace

/-- The value of a hexadecimal digit of either case. -/
def hexDigit? (c : Char) : Option Nat :=
  if Text.isDigit c then some (c.toNat - '0'.toNat)
  else if 'a' ≤ c ∧ c ≤ 'f' then some (c.toNat - 'a'.toNat + 10)
  else if 'A' ≤ c ∧ c ≤ 'F' then some (c.toNat - 'A'.toNat + 10)
  else none

/-- The unit that four hexadecimal digits write. -/
def unit? (a b c d : Char) : Option Nat := do
  let a ← hexDigit? a
  let b ← hexDigit? b
  let c ← hexDigit? c
  let d ← hexDigit? d
  return ((a * 16 + b) * 16 + c) * 16 + d

/-- The unit that a one-letter escape writes. -/
def letterUnit? : Char → Option Nat
  | '"' => some 0x22
  | '\\' => some 0x5c
  | '/' => some 0x2f
  | 'b' => some 0x08
  | 'f' => some 0x0c
  | 'n' => some 0x0a
  | 'r' => some 0x0d
  | 't' => some 0x09
  | _ => none

/-- The units of a string up to its closing quote, and the rest after the quote. -/
def readString? : List Char → Option (List Nat × List Char)
  | [] => none
  | '"' :: rest => some ([], rest)
  | '\\' :: 'u' :: a :: b :: c :: d :: rest => do
      let u ← unit? a b c d
      let (units, rest) ← readString? rest
      return (u :: units, rest)
  | '\\' :: l :: rest => do
      let u ← letterUnit? l
      let (units, rest) ← readString? rest
      return (u :: units, rest)
  | c :: rest =>
      if c == '\\' || decide (c.toNat < 0x20) then none
      else do
        let (units, rest) ← readString? rest
        return (unitsOf c ++ units, rest)

/-- The digits at the start and the rest. -/
def takeDigits (input : List Char) : List Char × List Char :=
  (input.takeWhile Text.isDigit, input.dropWhile Text.isDigit)

/-- The part of a number before its fraction: no digit may follow a leading zero. -/
def readInteger? (input : List Char) : Option (List Char × List Char) :=
  match takeDigits input with
  | ([], _) => none
  | ('0' :: _ :: _, _) => none
  | (digits, rest) => some (digits, rest)

/-- The fraction of a number, if it has one. -/
def readFraction? : List Char → Option (List Char × List Char)
  | '.' :: rest =>
      match takeDigits rest with
      | ([], _) => none
      | (digits, rest) => some ('.' :: digits, rest)
  | input => some ([], input)

/-- The sign at the start, if there is one, and the rest. -/
def takeSign : List Char → List Char × List Char
  | '+' :: rest => (['+'], rest)
  | '-' :: rest => (['-'], rest)
  | input => ([], input)

/-- The exponent of a number, if it has one. -/
def readExponent? : List Char → Option (List Char × List Char)
  | [] => some ([], [])
  | c :: rest =>
      if c == 'e' || c == 'E' then
        let (sign, rest) := takeSign rest
        match takeDigits rest with
        | ([], _) => none
        | (digits, rest) => some (c :: sign ++ digits, rest)
      else some ([], c :: rest)

/-- A number literal and the rest. -/
def readNumber? (input : List Char) : Option (List Char × List Char) := do
  let (sign, input) := match input with
    | '-' :: rest => (['-'], rest)
    | _ => ([], input)
  let (integer, input) ← readInteger? input
  let (fraction, input) ← readFraction? input
  let (exponent, input) ← readExponent? input
  return (sign ++ integer ++ fraction ++ exponent, input)

/-! ## Values -/

mutual

/-- A value and the rest after it.  The allowance bounds the nesting. -/
def readValue? : Nat → List Char → Option (Document × List Char)
  | 0, _ => none
  | depth + 1, input =>
      match skipSpace input with
      | 'n' :: 'u' :: 'l' :: 'l' :: rest => some (.null, rest)
      | 't' :: 'r' :: 'u' :: 'e' :: rest => some (.bool true, rest)
      | 'f' :: 'a' :: 'l' :: 's' :: 'e' :: rest => some (.bool false, rest)
      | '"' :: rest => (readString? rest).map fun (units, rest) => (.string units, rest)
      | '[' :: rest =>
          match skipSpace rest with
          | ']' :: rest => some (.array [], rest)
          | rest => (readItems? depth rest).map fun (items, rest) => (.array items, rest)
      | '\x7b' :: rest =>
          match skipSpace rest with
          | '\x7d' :: rest => some (.object [], rest)
          | rest => (readMembers? depth rest).map fun (members, rest) => (.object members, rest)
      | rest => (readNumber? rest).map fun (literal, rest) => (.number literal, rest)

/-- One or more items up to the closing bracket. -/
def readItems? : Nat → List Char → Option (List Document × List Char)
  | 0, _ => none
  | depth + 1, input => do
      let (item, rest) ← readValue? depth input
      match skipSpace rest with
      | ']' :: rest => return ([item], rest)
      | ',' :: rest =>
          let (items, rest) ← readItems? depth rest
          return (item :: items, rest)
      | _ => none

/-- One or more members up to the closing brace. -/
def readMembers? : Nat → List Char → Option (List (List Nat × Document) × List Char)
  | 0, _ => none
  | depth + 1, input =>
      match skipSpace input with
      | '"' :: rest => do
          let (name, rest) ← readString? rest
          match skipSpace rest with
          | ':' :: rest =>
              let (value, rest) ← readValue? depth rest
              match skipSpace rest with
              | '\x7d' :: rest => return ([(name, value)], rest)
              | ',' :: rest =>
                  let (members, rest) ← readMembers? depth rest
                  return ((name, value) :: members, rest)
              | _ => none
          | _ => none
      | _ => none

end

namespace Document

/-- The value that a text consists of.  Every level and every item takes a character of the text,
so its length is allowance enough. -/
def ofText? (text : String) : Option Document :=
  match readValue? (2 * text.toList.length + 2) text.toList with
  | some (value, rest) => if (skipSpace rest).isEmpty then some value else none
  | none => none

/-- The text of a string whose units pair up. -/
def text? : Document → Option String
  | .string units => textOf? units
  | _ => none

/-- The truth value. -/
def bool? : Document → Option Bool
  | .bool b => some b
  | _ => none

/-- A number written as plain digits, below `2 ^ 64`. -/
def count64? : Document → Option Nat
  | .number literal => Text.count64? literal
  | _ => none

end Document

end MemoGraph.Json
