import MemoGraph.Text.Printable

/-!
# Quoted text

Text in double quotes, on one line: quotes and backslashes are escaped, a few control characters
have letters, and a character of a special class is shown by its number in hexadecimal.  The class
is a parameter, so that what is stated here holds for any table of characters.
-/

set_option autoImplicit false

namespace MemoGraph.Text

/-- The escape of one character, without regard to the special class. -/
def shortEscape? : Char → Option Char
  | '"' => some '"'
  | '\\' => some '\\'
  | '\n' => some 'n'
  | '\r' => some 'r'
  | '\t' => some 't'
  | '\x00' => some '0'
  | _ => none

/-- A character by its number: lower-case hexadecimal without leading zeros, in braces. -/
def numberEscape (c : Char) : List Char :=
  ['\\', 'u', '\x7b'] ++ Nat.toDigits 16 c.toNat ++ ['\x7d']

/-- One character as it stands in quoted text. -/
def escape (special : Char → Bool) (c : Char) : List Char :=
  match shortEscape? c with
  | some letter => ['\\', letter]
  | none => if special c then numberEscape c else [c]

/-- Quoted text over an arbitrary special class. -/
def quoteWith (special : Char → Bool) (text : List Char) : List Char :=
  '"' :: text.flatMap (escape special) ++ ['"']

/-- Text in quotes. -/
def quote (text : String) : String := String.ofList (quoteWith isSpecial text.toList)

end MemoGraph.Text
