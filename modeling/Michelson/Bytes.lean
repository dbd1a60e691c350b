/-
# Byte strings

A byte string is a list of bytes.  This file fixes the two readings of bytes that every binary
form of the library shares: a big-endian number, and the four-byte big-endian word that stands
before a sized payload.
-/

namespace Michelson

/-- A byte string. -/
abbrev Bytes := List UInt8

namespace Bytes

/-- The number that a byte string spells in base 256, most significant byte first. -/
def toNat (b : Bytes) : Nat :=
  b.foldl (fun n x => 256 * n + x.toNat) 0

/-- The `count` last base-256 digits of a number, most significant first. -/
def ofNat (count n : Nat) : Bytes :=
  match count with
  | 0 => []
  | count + 1 => UInt8.ofNat (n / Nat.pow 256 count) :: ofNat count n

@[simp] theorem length_ofNat (count n : Nat) : (ofNat count n).length = count := by
  induction count with
  | zero => rfl
  | succ count ih => simp [ofNat, ih]

/-- A length or number as four big-endian bytes. -/
def word (n : Nat) : Bytes := ofNat 4 n

/-- The signed number that four big-endian bytes spell in two's complement. -/
def toInt32 (b : Bytes) : Int :=
  Int.bmod (toNat b) 0x100000000

/-- A signed number as four big-endian bytes in two's complement. -/
def ofInt32 (i : Int) : Bytes :=
  word (i % 0x100000000).toNat

/-- Strips `head` from the front of `b`, if `b` starts with it. -/
def stripHead? (head b : Bytes) : Option Bytes :=
  if head.isPrefixOf b then some (b.drop head.length) else none

/-- Byte strings are ordered like words in a dictionary. -/
def isBefore (a b : Bytes) : Bool :=
  match a, b with
  | _, [] => false
  | [], _ :: _ => true
  | x :: a, y :: b => x < y || (x == y && isBefore a b)

/-- A non-empty byte string of printable ASCII characters, the space included. -/
def isAscii (b : Bytes) : Bool :=
  !b.isEmpty && b.all fun c => 0x20 ≤ c && c ≤ 0x7e

end Bytes

end Michelson
