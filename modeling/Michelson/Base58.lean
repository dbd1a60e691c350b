/-
# Base-58 text

Bytes as text over an alphabet of 58 letters and digits: the bytes are one big-endian number, and
each leading zero byte is a leading `1`.  Base58-check text holds some leading bytes that say what
the payload is, the payload, and a checksum of four bytes, the front of the digest of a digest.
-/
import Michelson.Error
import Michelson.Sha256

namespace Michelson.Base58

/-- The digits in the order of their values. -/
def alphabet : List Char :=
  "123456789ABCDEFGHJKLMNPQRSTUVWXYZabcdefghijkmnopqrstuvwxyz".toList

/-- The digits of a number, most significant first, in front of `rest`. -/
def digits (n : Nat) (rest : List Char) : List Char :=
  if n = 0 then rest else digits (n / 58) (alphabet.getD (n % 58) '1' :: rest)
termination_by n
decreasing_by omega

/-- The base-58 text of a byte string. -/
def encode (b : Bytes) : String :=
  let zeros := b.takeWhile (· == 0)
  String.ofList (zeros.map (fun _ => '1') ++ digits (Bytes.toNat b) [])

/-- The greatest number of bytes of the number that a text may spell.  A leading `1` is one zero byte
more and is not counted. -/
def maxBytes : Nat := 132

/-- The value of a digit given by its ASCII code. -/
def digitValue? (c : UInt8) : Option Nat :=
  (alphabet.idxOf? (Char.ofNat c.toNat))

/-- The number that digits spell behind the number `n`; the first of them is at `position`. -/
def number (n : Nat) (position : Nat) : Bytes → Except Base58Fault Nat
  | [] => .ok n
  | c :: rest =>
    match digitValue? c with
    | none => .error (.badDigit c position)
    | some d =>
      let next := 58 * n + d
      if next < Nat.pow 256 maxBytes then number next (position + 1) rest else .error .overflow

/-- The number of bytes of a number without leading zeros. -/
def byteLength (n : Nat) : Nat := if n = 0 then 0 else Nat.log2 n / 8 + 1

/-- The bytes that a base-58 text spells: a zero byte for each leading `1`, however many there are, and
the bytes of the number behind them, which are at most `maxBytes`. -/
def decode (text : String) : Except Base58Fault Bytes := do
  let codes := Utf8.encode text
  let ones := codes.takeWhile (· == 0x31)
  let n ← number 0 ones.length (codes.drop ones.length)
  return ones.map (fun _ => 0) ++ Bytes.ofNat (byteLength n) n

/-- The number of bytes of a checksum. -/
def checksumLength : Nat := 4

/-- The checksum of a byte string that a digest function gives. -/
def checksumWith (digest : Bytes → Bytes) (b : Bytes) : Bytes :=
  (digest (digest b)).take checksumLength

/-- The text of a payload behind leading bytes, with the checksum of a digest function. -/
def encodeWith (digest : Bytes → Bytes) (head payload : Bytes) : String :=
  encode (head ++ payload ++ checksumWith digest (head ++ payload))

/-- The payload of a text with these leading bytes and the checksum of a digest function. -/
def decodeWith (digest : Bytes → Bytes) (head : Bytes) (text : String) :
    Except Base58Fault Bytes := do
  let raw ← decode text
  if raw.length < head.length + checksumLength then throw (.tooShort text)
  let body := raw.take (raw.length - checksumLength)
  if checksumWith digest body ≠ raw.drop (raw.length - checksumLength) then
    throw (.badChecksum text)
  match Bytes.stripHead? head body with
  | some payload => return payload
  | none => throw (.unexpectedHead text)

/-- The base58-check text of a payload behind leading bytes. -/
def encodeChecked (head payload : Bytes) : String := encodeWith Sha256.digest head payload

/-- The payload of a base58-check text with these leading bytes. -/
def decodeChecked (head : Bytes) (text : String) : Except Base58Fault Bytes :=
  decodeWith Sha256.digest head text

end Michelson.Base58
