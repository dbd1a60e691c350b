/-
# Signature schemes

The curves that keys, signatures and implicit accounts belong to.
-/

namespace Michelson

/-- A signature scheme. -/
inductive Scheme where
  | ed25519 | secp256k1 | p256 | bls12_381
deriving DecidableEq, Repr

namespace Scheme

/-- The schemes in the order of their tags. -/
def all : List Scheme := [ed25519, secp256k1, p256, bls12_381]

/-- The one-byte tag of a scheme. -/
def tag : Scheme → UInt8
  | ed25519 => 0
  | secp256k1 => 1
  | p256 => 2
  | bls12_381 => 3

/-- The scheme with a tag. -/
def ofTag? (t : UInt8) : Option Scheme := all.find? fun s => s.tag == t

/-- The name of a scheme. -/
def name : Scheme → String
  | ed25519 => "Ed25519"
  | secp256k1 => "Secp256k1"
  | p256 => "P256"
  | bls12_381 => "Bls12_381"

/-- The number of bytes of a public key. -/
def keyLength : Scheme → Nat
  | ed25519 => 32
  | secp256k1 => 33
  | p256 => 33
  | bls12_381 => 48

end Scheme

end Michelson
