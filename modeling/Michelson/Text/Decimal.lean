/-
# Decimal numbers

Reading whole numbers from decimal text.  Only the digits `0` to `9` count as digits, leading
zeros are allowed, and nothing may surround the number.
-/

namespace Michelson.Decimal

/-- The number that a list of decimal digits spells. -/
def value (digits : List Char) : Nat :=
  digits.foldl (fun n c => 10 * n + (c.toNat - 48)) 0

/-- Reads one or more decimal digits. -/
def nat? (text : List Char) : Option Nat :=
  if text.isEmpty || !text.all Char.isDigit then none else some (value text)

/-- Reads digits behind an optional minus sign. -/
def int? (text : String) : Option Int :=
  match text.toList with
  | '-' :: digits => (nat? digits).map fun n => -Int.ofNat n
  | digits => (nat? digits).map Int.ofNat

/-- Reads digits behind an optional sign of either kind. -/
def signed? (text : String) : Option Int :=
  match text.toList with
  | '+' :: digits => (nat? digits).map Int.ofNat
  | _ => int? text

/-- Reads digits behind an optional plus sign. -/
def unsigned? (text : String) : Option Nat :=
  match text.toList with
  | '+' :: digits => nat? digits
  | digits => nat? digits

end Michelson.Decimal

namespace Michelson

/-- The numbers of a signed 32-bit word. -/
def isInt32 (i : Int) : Bool := -0x80000000 ≤ i && i < 0x80000000

/-- The numbers of a signed 64-bit word. -/
def isInt64 (i : Int) : Bool := -0x8000000000000000 ≤ i && i < 0x8000000000000000

/-- The numbers of an unsigned 64-bit word. -/
def isUInt64 (i : Int) : Bool := 0 ≤ i && i < 0x10000000000000000

end Michelson
