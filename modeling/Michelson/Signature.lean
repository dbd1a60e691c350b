/-
# Signatures

A signature is a byte string of a fixed length, of a known scheme or of no particular one.  The
binary form is the bytes alone, so only the length tells the scheme there; the text is
base58-check.
-/
import Michelson.Base58

namespace Michelson

/-- What a signature says about its scheme. -/
inductive SignatureClass where
  /-- A signature of this scheme. -/
  | of (scheme : Scheme)
  /-- A signature of a scheme that is not told. -/
  | generic
deriving DecidableEq, Repr

namespace SignatureClass

/-- The classes in the order in which a text is tried; the generic one is the last. -/
def all : List SignatureClass := Scheme.all.map of ++ [generic]

/-- The name of a class. -/
def name : SignatureClass → String
  | of scheme => scheme.name
  | generic => "Generic"

/-- The number of bytes of a signature. -/
def length : SignatureClass → Nat
  | of .bls12_381 => 96
  | _ => 64

/-- The bytes in front of a signature in base58-check text. -/
def head : SignatureClass → Bytes
  | of .ed25519 => [9, 245, 205, 134, 18]
  | of .secp256k1 => [13, 115, 101, 19, 63]
  | of .p256 => [54, 240, 44, 52]
  | of .bls12_381 => [40, 171, 64, 207]
  | generic => [4, 130, 43]

/-- The characters that the text of a signature starts with. -/
def textHead : SignatureClass → String
  | of .ed25519 => "edsig"
  | of .secp256k1 => "spsig1"
  | of .p256 => "p2sig"
  | of .bls12_381 => "BLsig"
  | generic => "sig"

end SignatureClass

/-- A signature. -/
structure Signature where
  /-- What the signature says about its scheme. -/
  cls : SignatureClass
  /-- The bytes of the signature. -/
  data : Bytes
  /-- The signature has the length of its class. -/
  length_data : data.length = cls.length
deriving DecidableEq, Repr

namespace Signature

/-- The signature of a class with these bytes, if there are as many as the class says. -/
def ofData? (cls : SignatureClass) (data : Bytes) : Option Signature :=
  if h : data.length = cls.length then some ⟨cls, data, h⟩ else none

/-- The binary form. -/
def toBytes (s : Signature) : Bytes := s.data

/-- Reads the binary form: 64 bytes are a generic signature, 96 bytes one of the long scheme. -/
def ofBytes (b : Bytes) : Except Error Signature :=
  match ofData? .generic b <|> ofData? (.of .bls12_381) b with
  | some s => .ok s
  | none => .error (.invalidLength (.signatureBytes b.length))

/-- The text with the checksum of a digest function. -/
def toTextWith (digest : Bytes → Bytes) (s : Signature) : String :=
  Base58.encodeWith digest s.cls.head s.data

/-- The base58-check text. -/
def toText (s : Signature) : String := s.toTextWith Sha256.digest

/-- Reads a text with the checksum of a digest function; its first characters tell the class. -/
def ofTextWith (digest : Bytes → Bytes) (text : String) : Except Error Signature :=
  match SignatureClass.all.find? fun c => c.textHead.toList.isPrefixOf text.toList with
  | none => .error (.base58 (.unknownHead .signature text))
  | some cls =>
    match Base58.decodeWith digest cls.head text with
    | .error fault => .error (.base58 fault)
    | .ok data =>
      match ofData? cls data with
      | some s => .ok s
      | none => .error (.invalidLength (.signatureText text))

/-- Reads base58-check text. -/
def ofText (text : String) : Except Error Signature := ofTextWith Sha256.digest text

end Signature

end Michelson
