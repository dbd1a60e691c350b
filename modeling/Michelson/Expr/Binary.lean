/-
# Expressions as bytes

The binary form of a tree starts with a tag byte.  Literals, sequences, arguments in the wide form
and annotations stand behind a length of four bytes; an application in one of the narrow forms has
its arguments one after the other.  Reading is exact: it accepts what writing produces and nothing
else, within a limit on the depth of the tree.
-/
import Michelson.Binary.Zarith
import Michelson.Text.Split

namespace Michelson

/-- A payload behind its length. -/
def encodeBlock (payload : Bytes) : Except Error Bytes :=
  if payload.length < 0x100000000 then .ok (Bytes.word payload.length ++ payload)
  else .error (.invalidLength (.tooLong payload.length))

/-- Whether an annotation can stand in a list of annotations: it is not empty and has no space. -/
def isAnnot (annot : String) : Bool := !annot.isEmpty && !annot.toList.contains ' '

/-- A list of annotations, separated by spaces, behind its length. -/
def encodeAnnots (annots : List String) : Except Error Bytes :=
  match annots.find? fun a => !isAnnot a with
  | some bad => .error (.invalidAnnot (.malformed bad))
  | none => encodeBlock (Utf8.encode (Text.join ' ' annots))

/-- Reads a list of annotations. -/
def decodeAnnots : Decoder (List String) := do
  let raw ← Decoder.block
  if raw.isEmpty then return []
  match Utf8.decode? raw with
  | none => throw (.invalidAnnot .notUtf8)
  | some text =>
    let annots := Text.split ' ' text
    if annots.contains "" then throw (.invalidAnnot (.malformed text))
    return annots

namespace Expr

mutual

/-- The bytes of a tree. -/
def encode : Expr → Except Error Bytes
  | literal (.int n) _ => .ok (0x00 :: Zarith.encode n)
  | literal (.string s) _ => (encodeBlock (Utf8.encode s)).map (0x01 :: ·)
  | literal (.bytes b) _ => (encodeBlock b).map (0x0a :: ·)
  | seq items _ => do
    let body ← encodeBlock (← encodeAll items)
    return 0x02 :: body
  | app p args annots wide unpacked => do
    let parts ← encodeAll args
    if wide || 2 < args.length then
      let body ← encodeBlock parts
      let tail ← encodeAnnots annots
      return 0x09 :: p.code :: (body ++ tail)
    else
      let tail ← if annots.isEmpty then .ok [] else encodeAnnots annots
      return (app p args annots wide unpacked).kind.tag :: p.code :: (parts ++ tail)

/-- The bytes of trees one after the other. -/
def encodeAll : List Expr → Except Error Bytes
  | [] => .ok []
  | e :: rest => do
    let head ← encode e
    let tail ← encodeAll rest
    return head ++ tail

end

/-- Reads the code of a primitive. -/
def decodePrimitive : Decoder Primitive := do
  let code ← Decoder.byte
  match Primitive.ofCode? code with
  | some p => return p
  | none => throw (.unknownCode code)

/-- Reads `count` values one after the other. -/
def decodeMany {α : Type} (item : Decoder α) : (count : Nat) → Decoder (List α)
  | 0 => return []
  | count + 1 => do
    let a ← item
    let rest ← decodeMany item count
    return a :: rest

/-- Reads an application in a narrow form behind its tag. -/
def decodeNarrow (part : Decoder Expr) (arity : Nat) (annotated : Bool) : Decoder Expr := do
  let p ← decodePrimitive
  let args ← decodeMany part arity
  let annots ← if annotated then decodeAnnots else pure []
  if annotated && annots.isEmpty then throw (.invalidAnnot .emptyList)
  return app p args annots false false

/-- Reads an application in the wide form behind its tag. -/
def decodeWide (part : Decoder Expr) : Decoder Expr := do
  let p ← decodePrimitive
  let window ← Decoder.block
  let args ← Decoder.lift (Decoder.fill part window)
  let annots ← decodeAnnots
  return app p args annots true false

/-- Reads the node with this tag, its parts with `part`. -/
def decodeNode (part : Decoder Expr) (tag : UInt8) : Decoder Expr :=
  match tag with
  | 0x00 => return int (← Zarith.decode)
  | 0x01 => do
    let raw ← Decoder.block
    match Utf8.decode? raw with
    | some s => return string s
    | none => throw .invalidString
  | 0x02 => do
    let window ← Decoder.block
    return list (← Decoder.lift (Decoder.fill part window))
  | 0x03 => decodeNarrow part 0 false
  | 0x04 => decodeNarrow part 0 true
  | 0x05 => decodeNarrow part 1 false
  | 0x06 => decodeNarrow part 1 true
  | 0x07 => decodeNarrow part 2 false
  | 0x08 => decodeNarrow part 2 true
  | 0x09 => decodeWide part
  | 0x0a => return bytes (← Decoder.block)
  | tag => throw (.invalidTag tag)

/-- Reads a tree of at most `levels` levels, the root included.  The limit is the one to report
when the tree goes deeper. -/
def decodeWithin (limit : Nat) : (levels : Nat) → Decoder Expr
  | 0 => throw (.depthExceeded limit)
  | levels + 1 => do
    let tag ← Decoder.byte
    decodeNode (decodeWithin limit levels) tag

/-- Reads a tree of height at most `limit`. -/
def decoder (limit : Nat) : Decoder Expr := decodeWithin limit (limit + 1)

/-- The greatest height of a tree when no other limit is given. -/
def defaultLimit : Nat := 1024

/-- The tree that a byte string spells, of height at most `limit`. -/
def decode (limit : Nat) (b : Bytes) : Except Error Expr := (decoder limit).runAll b

/-- The tree at the front of a byte string, and the number of its bytes. -/
def decodeFront (b : Bytes) : Except Error (Expr × Nat) :=
  match decoder defaultLimit b with
  | .ok e rest => .ok (e, b.length - rest.length)
  | .error e _ => .error e

end Expr

end Michelson
