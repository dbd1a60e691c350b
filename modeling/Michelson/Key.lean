/-
# Public keys

A public key is a scheme and as many bytes as the scheme says.  Its binary form has the tag of the
scheme in front; its text is base58-check.
-/
import Michelson.Base58

namespace Michelson

namespace Scheme

/-- The bytes in front of a key in base58-check text. -/
def keyHead : Scheme → Bytes
  | ed25519 => [13, 15, 37, 217]
  | secp256k1 => [3, 254, 226, 86]
  | p256 => [3, 178, 139, 127]
  | bls12_381 => [6, 149, 135, 204]

/-- The characters that the text of a key starts with. -/
def keyTextHead : Scheme → String
  | ed25519 => "edpk"
  | secp256k1 => "sppk"
  | p256 => "p2pk"
  | bls12_381 => "BLpk"

/-- The scheme with this tag. -/
def ofTag (tag : UInt8) : Except Error Scheme :=
  match ofTag? tag with
  | some scheme => .ok scheme
  | none => .error (.invalidTag tag)

end Scheme

/-- A public key. -/
structure Key where
  /-- The scheme. -/
  scheme : Scheme
  /-- The bytes of the key. -/
  data : Bytes
  /-- The key has the length that the scheme says. -/
  length_data : data.length = scheme.keyLength
deriving DecidableEq, Repr

namespace Key

/-- The key of a scheme with these bytes. -/
def new (scheme : Scheme) (data : Bytes) : Except Error Key :=
  if h : data.length = scheme.keyLength then .ok ⟨scheme, data, h⟩
  else .error (.invalidLength (.key scheme data.length))

/-- The binary form. -/
def toBytes (k : Key) : Bytes := k.scheme.tag :: k.data

/-- Reads the binary form. -/
def ofBytes : Bytes → Except Error Key
  | [] => .error .shortBuffer
  | tag :: data => do
    let scheme ← Scheme.ofTag tag
    new scheme data

/-- The text with the checksum of a digest function. -/
def toTextWith (digest : Bytes → Bytes) (k : Key) : String :=
  Base58.encodeWith digest k.scheme.keyHead k.data

/-- The base58-check text. -/
def toText (k : Key) : String := k.toTextWith Sha256.digest

/-- Reads a text with the checksum of a digest function; its first characters tell the scheme. -/
def ofTextWith (digest : Bytes → Bytes) (text : String) : Except Error Key :=
  match Scheme.all.find? fun s => s.keyTextHead.toList.isPrefixOf text.toList with
  | none => .error (.base58 (.unknownHead .key text))
  | some scheme =>
    match Base58.decodeWith digest scheme.keyHead text with
    | .error fault => .error (.base58 fault)
    | .ok data => new scheme data

/-- Reads base58-check text. -/
def ofText (text : String) : Except Error Key := ofTextWith Sha256.digest text

end Key

end Michelson
