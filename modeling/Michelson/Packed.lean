/-
# Packed bytes

A tree is packed as its binary form behind a tag byte.  Byte strings carry no type, so three
readings count as packed: tagged bytes that spell a tree, printable ASCII text, and the binary
form of an address.  `Expr.openWithin` opens every byte string of a tree within one budget of depth.
-/
import Michelson.Address
import Michelson.Expr.Binary

namespace Michelson

/-- The tag byte of a packed tree. -/
def packedTag : UInt8 := 0x05

/-- Whether bytes are tagged and spell a tree. -/
def isTaggedTree : Bytes → Bool
  | [] => false
  | tag :: rest => tag == packedTag && !rest.isEmpty && (Expr.decode Expr.defaultLimit rest).isOk

namespace Expr

/-- The packed form of a tree. -/
def pack (e : Expr) : Except Error Bytes := do
  return packedTag :: (← encode e)

/-- Whether a node is a byte string in one of the packed forms. -/
def isOpenable (e : Expr) : Bool :=
  match e.bytes? with
  | some b => isTaggedTree b || Bytes.isAscii b || Address.isBinaryForm b
  | none => false

/-- Reads packed bytes as a tree of height at most `limit`. -/
def unpackBytes (limit : Nat) (b : Bytes) : Except Error Expr :=
  match b with
  | tag :: x :: rest =>
    if tag = packedTag then decode limit (x :: rest) else unpackUntagged b
  | b => unpackUntagged b
where
  /-- Reads bytes without a tag: ASCII text, or an address as its text. -/
  unpackUntagged (b : Bytes) : Except Error Expr :=
    if Bytes.isAscii b then .ok (string (Utf8.ofAscii b))
    else match Address.ofBytes b with
      | .ok a => .ok (string a.toText)
      | .error _ => .error (.unpack .notPacked)

/-- The tree that a packed node holds, of height at most `limit`, with its root marked. -/
def unpack (limit : Nat) (e : Expr) : Except Error Expr :=
  match e.bytes? with
  | some b => (unpackBytes limit b).map markUnpacked
  | none => .error (.unpack (.notBytes e.kind))

/-- The tree in a packed node, or the node itself when it is not packed or goes deeper than
`limit`. -/
def opened (limit : Nat) (e : Expr) : Expr :=
  if e.isOpenable then
    match unpack limit e with
    | .ok tree => tree
    | .error _ => e
  else e

mutual

/-- Opens the packed nodes of a tree where no depth is left. -/
def openFlat : Expr → Expr
  | literal l u => opened 0 (literal l u)
  | seq items u => seq (openFlatAll items) u
  | app p args annots w u => app p (openFlatAll args) annots w u

/-- Opens the packed nodes of trees where no depth is left. -/
def openFlatAll : List Expr → List Expr
  | [] => []
  | e :: rest => openFlat e :: openFlatAll rest

end

/-- Opens the packed nodes of a tree, and those in the trees that come to light, as long as the
opened trees stay within `budget` levels below the root. -/
def openWithin : (budget : Nat) → Expr → Expr
  | 0, e => openFlat e
  | budget + 1, e =>
    let e := opened (budget + 1) e
    e.withArgs (e.args.map (openWithin budget))

mutual

/-- The tree with every byte string of printable ASCII read as text. -/
def openAscii : Expr → Expr
  | literal (.bytes b) u =>
    if Bytes.isAscii b then literal (.string (Utf8.ofAscii b)) true else literal (.bytes b) u
  | literal l u => literal l u
  | seq items u => seq (openAsciiAll items) u
  | app p args annots w u => app p (openAsciiAll args) annots w u

/-- The trees with every byte string of printable ASCII read as text. -/
def openAsciiAll : List Expr → List Expr
  | [] => []
  | e :: rest => openAscii e :: openAsciiAll rest

end

/-- A short fingerprint of a tree: the first eight bytes of the digest of its binary form. -/
def fingerprint (e : Expr) : Except Error Nat := do
  return Bytes.toNat ((Sha256.digest (← encode e)).take 8)

end Expr

end Michelson
