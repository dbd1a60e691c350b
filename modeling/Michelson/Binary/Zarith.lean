/-
# Whole numbers of any size in bytes

A number is written in groups of bits, least significant first.  The first byte holds a bit for
"more bytes follow", the sign bit and six bits of the magnitude; every further byte holds a bit for
"more bytes follow" and seven bits of the magnitude.  The last of several bytes is not zero and
zero has no sign, so each number has one form.
-/
import Michelson.Binary.Decoder

namespace Michelson.Zarith

/-- The bytes of a magnitude in base 128, least significant first. -/
def encodeGroups (n : Nat) : Bytes :=
  if n < 128 then [UInt8.ofNat n]
  else UInt8.ofNat (128 + n % 128) :: encodeGroups (n / 128)
termination_by n
decreasing_by omega

/-- The bytes of a number. -/
def encode (i : Int) : Bytes :=
  let sign := if i < 0 then 64 else 0
  let low := i.natAbs % 64
  let high := i.natAbs / 64
  if high = 0 then [UInt8.ofNat (sign + low)]
  else UInt8.ofNat (128 + sign + low) :: encodeGroups high

/-- Reads the groups behind the first byte. -/
def groups : Decoder Nat
  | [] => .error .shortBuffer []
  | x :: rest =>
    if x < 128 then
      if x = 0 then .error (.invalidInteger .trailingZero) rest else .ok x.toNat rest
    else match groups rest with
      | .ok n rest => .ok (x.toNat - 128 + 128 * n) rest
      | .error e rest => .error e rest

/-- The number with this sign and magnitude. -/
def signed (negative : Bool) (n : Nat) : Int := if negative then -n else n

/-- Reads a number. -/
def decode : Decoder Int := do
  let first ← Decoder.byte
  let negative := first.toNat / 64 % 2 = 1
  let low := first.toNat % 64
  if first < 128 then
    if negative ∧ low = 0 then throw (.invalidInteger .negativeZero)
    else return signed negative low
  else
    let high ← groups
    return signed negative (low + 64 * high)

end Michelson.Zarith
