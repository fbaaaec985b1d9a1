/-!
# Reading decimal numbers

Decimal digits are read as a natural number; a count takes at most 64 bits.
-/

set_option autoImplicit false

namespace MemoGraph.Text

/-- Whether a character is one of the ten digits. -/
def isDigit (c : Char) : Bool := decide ('0'.toNat ≤ c.toNat ∧ c.toNat ≤ '9'.toNat)

/-- The number that digits denote. -/
def ofDigits (digits : List Char) : Nat :=
  digits.foldl (fun n c => 10 * n + (c.toNat - '0'.toNat)) 0

/-- The first number that takes more than 64 bits. -/
def countBound : Nat := 0x10000000000000000

/-- One or more digits as a number of at most 64 bits. -/
def count64? (digits : List Char) : Option Nat :=
  if !digits.isEmpty && digits.all isDigit && decide (ofDigits digits < countBound) then
    some (ofDigits digits)
  else none

end MemoGraph.Text
