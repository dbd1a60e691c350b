/-
# Hexadecimal text

Bytes as pairs of hexadecimal digits.  Writing uses lower-case digits; reading accepts both
cases, so reading undoes writing but a byte string has several spellings.
-/
import Michelson.Text.Quoted
import Michelson.Text.Utf8

namespace Michelson

/-- Why a text is not hexadecimal. -/
inductive HexFault where
  /-- The number of digits is odd. -/
  | oddLength
  /-- The byte at this position is no hexadecimal digit. -/
  | badDigit (byte : UInt8) (position : Nat)
deriving DecidableEq, Repr

namespace HexFault

/-- What is wrong, in words.  A stray byte is shown as the character with its code. -/
def message : HexFault → String
  | oddLength => "Odd number of digits"
  | badDigit byte position =>
    "Invalid character " ++ Text.quoteChar (Char.ofNat byte.toNat) ++ " at position " ++
      toString position

end HexFault

namespace Bytes

/-- The lower-case hexadecimal text of a byte string. -/
def toHex (b : Bytes) : String :=
  String.join (b.map Text.hexByte)

/-- The value of a hexadecimal digit given by its ASCII code. -/
def hexValue? (c : UInt8) : Option UInt8 :=
  if 0x30 ≤ c && c ≤ 0x39 then some (c - 0x30)
  else if 0x61 ≤ c && c ≤ 0x66 then some (c - 0x57)
  else if 0x41 ≤ c && c ≤ 0x46 then some (c - 0x37)
  else none

/-- Reads pairs of digits, the first of them at `position`. -/
def ofHexDigits (position : Nat) : Bytes → Except HexFault Bytes
  | high :: low :: rest =>
    match hexValue? high, hexValue? low with
    | none, _ => .error (.badDigit high position)
    | _, none => .error (.badDigit low (position + 1))
    | some h, some l => (ofHexDigits (position + 2) rest).map fun b => (16 * h + l) :: b
  | _ => .ok []

/-- Reads the bytes that a hexadecimal text spells. -/
def ofHex (text : String) : Except HexFault Bytes :=
  let digits := Utf8.encode text
  if digits.length % 2 = 0 then ofHexDigits 0 digits else .error .oddLength

end Bytes

end Michelson
