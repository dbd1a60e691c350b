/-
# Addresses

An address is the class of an account or contract and a hash of twenty bytes.  It has a binary
form of 22 bytes and a base58-check text; an implicit account also has a form of 21 bytes, the
hash of its key.
-/
import Michelson.Base58

namespace Michelson

/-- The classes of addresses. -/
inductive AddressClass where
  /-- The account of a key of this scheme. -/
  | implicit (scheme : Scheme)
  /-- An originated contract. -/
  | contract
  /-- A transaction rollup. -/
  | txRollup
  /-- A smart rollup. -/
  | smartRollup
deriving DecidableEq, Repr

namespace AddressClass

/-- The classes in their order. -/
def all : List AddressClass :=
  Scheme.all.map implicit ++ [contract, txRollup, smartRollup]

/-- The name of a class. -/
def name : AddressClass → String
  | implicit scheme => scheme.name
  | contract => "Contract"
  | txRollup => "TxRollup"
  | smartRollup => "SmartRollup"

/-- The bytes in front of the hash in base58-check text. -/
def head : AddressClass → Bytes
  | implicit .ed25519 => [6, 161, 159]
  | implicit .secp256k1 => [6, 161, 161]
  | implicit .p256 => [6, 161, 164]
  | implicit .bls12_381 => [6, 161, 166]
  | contract => [2, 90, 121]
  | txRollup => [1, 128, 120, 31]
  | smartRollup => [6, 124, 117]

/-- The characters that the text of an address starts with. -/
def textHead : AddressClass → String
  | implicit .ed25519 => "tz1"
  | implicit .secp256k1 => "tz2"
  | implicit .p256 => "tz3"
  | implicit .bls12_381 => "tz4"
  | contract => "KT1"
  | txRollup => "txr1"
  | smartRollup => "sr1"

/-- Whether the class is that of the account of a key. -/
def isImplicit : AddressClass → Bool
  | implicit _ => true
  | _ => false

end AddressClass

/-- The number of bytes of the hash of an address. -/
def hashLength : Nat := 20

/-- The number of bytes of the binary form of an address. -/
def addressLength : Nat := 22

/-- The address of an account or contract. -/
structure Address where
  /-- What the address belongs to. -/
  cls : AddressClass
  /-- The hash. -/
  hash : Bytes
  /-- The hash has its fixed length. -/
  length_hash : hash.length = hashLength
deriving DecidableEq, Repr

namespace Address

/-- The address of a class with this hash, if the hash has the right length. -/
def ofHash? (cls : AddressClass) (hash : Bytes) : Option Address :=
  if h : hash.length = hashLength then some ⟨cls, hash, h⟩ else none

/-- The binary form. -/
def toBytes (a : Address) : Bytes :=
  match a.cls with
  | .implicit scheme => 0x00 :: scheme.tag :: a.hash
  | .contract => 0x01 :: (a.hash ++ [0x00])
  | .txRollup => 0x02 :: (a.hash ++ [0x00])
  | .smartRollup => 0x03 :: (a.hash ++ [0x00])

/-- The class of a contract or rollup with this leading byte. -/
def originatedClass? (lead : UInt8) : Option AddressClass :=
  if lead = 0x01 then some .contract
  else if lead = 0x02 then some .txRollup
  else if lead = 0x03 then some .smartRollup
  else none

/-- Reads the binary form: a zero byte, a tag and the hash, or a class byte, the hash and a zero
byte. -/
def ofBytes (b : Bytes) : Except Error Address :=
  if hb : b.length = addressLength then
    match b, hb with
    | lead :: rest, hb =>
      if lead = 0x00 then
        match rest, hb with
        | tag :: hash, hb =>
          match Scheme.ofTag? tag with
          | some scheme => .ok ⟨.implicit scheme, hash, by simpa [addressLength, hashLength] using hb⟩
          | none => .error (.invalidTag tag)
        | [], _ => .error (.invalidTag lead)
      else
        match originatedClass? lead with
        | some cls =>
          if rest.getLast? = some 0x00 then
            .ok ⟨cls, rest.dropLast, by
              simp only [List.length_cons, addressLength] at hb
              simp [hashLength]; omega⟩
          else .error (.invalidTag lead)
        | none => .error (.invalidTag lead)
    | [], _ => .error (.invalidLength (.addressBytes 0))
  else .error (.invalidLength (.addressBytes b.length))

/-- Reads the hash of a key: a tag and the hash. -/
def ofKeyHashBytes (b : Bytes) : Except Error Address := ofBytes (0x00 :: b)

/-- Whether bytes are the binary form of an address. -/
def isBinaryForm (b : Bytes) : Bool := (ofBytes b).isOk

/-- The text with the checksum of a digest function. -/
def toTextWith (digest : Bytes → Bytes) (a : Address) : String :=
  Base58.encodeWith digest a.cls.head a.hash

/-- The base58-check text. -/
def toText (a : Address) : String := a.toTextWith Sha256.digest

/-- Reads a text with the checksum of a digest function; its first characters tell the class. -/
def ofTextWith (digest : Bytes → Bytes) (text : String) : Except Error Address :=
  match AddressClass.all.find? fun c => c.textHead.toList.isPrefixOf text.toList with
  | none => .error (.base58 (.unknownHead .address text))
  | some cls =>
    match Base58.decodeWith digest cls.head text with
    | .error fault => .error (.base58 fault)
    | .ok hash =>
      match ofHash? cls hash with
      | some a => .ok a
      | none => .error (.invalidLength (.addressText text))

/-- Reads base58-check text. -/
def ofText (text : String) : Except Error Address := ofTextWith Sha256.digest text

/-- Addresses are ordered by class and then by hash. -/
def isBefore (a b : Address) : Bool :=
  let i := AddressClass.all.idxOf a.cls
  let j := AddressClass.all.idxOf b.cls
  i < j || (i == j && Bytes.isBefore a.hash b.hash)

/-- Adds an address to an ordered list, unless it is there. -/
def insert (a : Address) : List Address → List Address
  | [] => [a]
  | b :: rest => if a = b then b :: rest else if isBefore a b then a :: b :: rest else b :: insert a rest

/-- Some addresses in order, each once. -/
def sort (addresses : List Address) : List Address := addresses.foldr insert []

end Address

end Michelson
