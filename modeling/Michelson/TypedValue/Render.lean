/-
# Typed values as JSON

The JSON rendering of a value under its type: a pair is an object with its fields, a map an object
with its keys rendered as names, a list or set an array, an absent option `null`.  Whole numbers
that fit 64 bits are numbers and larger ones texts; addresses, keys and signatures are written in
their base58-check text.
-/
import Michelson.Expr.Json
import Michelson.Key
import Michelson.Packed
import Michelson.Signature
import Michelson.TypedValue.Parts

namespace Michelson.TypedValue

/-- A whole number: a JSON number if it fits 64 bits, with or without a sign, else a text. -/
def renderInt (n : Int) : Json :=
  if isInt64 n || isUInt64 n then .int n else .text (toString n)

/-- The rendering of a value whatever its type. -/
def renderLiteral (e : Expr) : Json :=
  match e with
  | .literal (.int n) _ => renderInt n
  | .literal (.string s) _ => .text s
  | .literal (.bytes b) _ => .text (Bytes.toHex b)
  | e => e.toJson

/-- The text of the address that bytes of this type hold, with the checksum of a digest function.
Behind an address may stand the name of an entrypoint; a hash of a key is an address of 21 bytes. -/
def addressText? (digest : Bytes → Bytes) (type : Expr) (b : Bytes) : Option String :=
  if type.applies (.type .keyHash) then
    match Address.ofKeyHashBytes b with
    | .ok a => some (a.toTextWith digest)
    | .error _ => none
  else
    match Bytes.cut? addressLength b with
    | none => none
    | some (head, entrypoint) =>
      match Address.ofBytes head with
      | .error _ => none
      | .ok a =>
        if entrypoint.isEmpty then some (a.toTextWith digest)
        else (Utf8.decode? entrypoint).map fun name => a.toTextWith digest ++ "%" ++ name

/-- The rendering of a value of a type without parts, with the checksums of a digest function. -/
def renderLeafWith (digest : Bytes → Bytes) (v : TypedValue) : Except ShapeFault Json :=
  let textOr (text : Option String) : Json :=
    match text with
    | some s => .text s
    | none => renderLiteral v.value
  let address := textOr (v.value.bytes?.bind (addressText? digest v.type))
  let key := textOr (v.value.bytes?.bind fun b =>
    (Key.ofBytes b).toOption.map (Key.toTextWith digest))
  let signature := textOr (v.value.bytes?.bind fun b =>
    (Signature.ofBytes b).toOption.map (Signature.toTextWith digest))
  match v.type.prim? with
  | some (.type .bool) =>
    match v.value.prim? with
    | some (.data .true) => .ok (.bool true)
    | some (.data .false) => .ok (.bool false)
    | _ => .error v.mismatch
  | some (.type .unit) => .ok .null
  | some (.type .address) => .ok address
  | some (.type .contract) => .ok address
  | some (.type .keyHash) => .ok address
  | some (.type .key) => .ok key
  | some (.type .signature) => .ok signature
  | some (.type .lambda) => .ok (.text v.value.toText)
  | _ => .ok (renderLiteral v.value)

/-- The rendering of a value of a type without parts. -/
def renderLeaf (v : TypedValue) : Except ShapeFault Json := renderLeafWith Sha256.digest v

/-- The rendering of a key as the name of a member: a text as it is, else its JSON text. -/
def memberName : Json → String
  | .text s => s
  | j => j.print

/-- How the parts of a value are put together. -/
inductive Layout where
  /-- A value without parts. -/
  | leaf
  /-- An object of the parts. -/
  | object
  /-- An array of the parts. -/
  | array
  /-- The value of an option, by its type's argument. -/
  | option
  /-- The value on a side of a choice, by its type's argument. -/
  | choice
deriving DecidableEq, Repr

/-- The layout of a value.  A map is an object unless its value is no sequence. -/
def layout (v : TypedValue) : Layout :=
  match v.type.prim? with
  | some (.type .pair) => .object
  | some (.type .list) => .array
  | some (.type .set) => .array
  | some (.type .map) => if v.value.isSequence then .object else .leaf
  | some (.type .bigMap) => if v.value.isSequence then .object else .leaf
  | some (.type .option) => .option
  | some (.type .or) => .choice
  | _ => .leaf

/-- The side of a choice that a value takes, and the name for it. -/
def choiceSide? (v : TypedValue) : Option (Nat × String) :=
  match v.value.prim? with
  | some (.data .left) => some (0, "Left")
  | some (.data .right) => some (1, "Right")
  | _ => none

mutual

/-- The JSON rendering of a value. -/
def render (v : TypedValue) : Except ShapeFault Json :=
  match v.layout with
  | .leaf => v.renderLeaf
  | .option =>
    match v.value.prim? with
    | some (.data .some) =>
      match h : v.content 0 with
      | .ok r =>
        have := sizeOf_type_content h
        render r
      | .error fault => .error fault
    | some (.data .none) => .ok .null
    | _ => .error v.mismatch
  | .choice =>
    match v.choiceSide? with
    | none => .error v.mismatch
    | some (side, name) =>
      match h : v.content side with
      | .ok r => do
        have := sizeOf_type_content h
        let j ← render r
        return .object [(r.type.label?.getD name, j)]
      | .error fault => .error fault
  | .object => do
    let members ← renderParts v
    return .ofMembers members
  | .array => do
    let members ← renderParts v
    return .array (members.map Prod.snd)
termination_by (sizeOf v.type, 1)

/-- The renderings of the direct parts of a value with their names.  All names come first.  The
rendering of a pair without arguments, which is a part of itself, would have no end and is refused. -/
def renderParts (v : TypedValue) : Except ShapeFault (List (String × Json)) :=
  match h : v.parts with
  | .error fault => .error fault
  | .ok ps =>
    if hbare : isBarePair v.type then .error v.mismatch
    else do
      have hbare : isBarePair v.type = false := by simpa using hbare
      let names ← ps.attach.mapM fun ⟨p, hp⟩ =>
        match p, hp with
        | .named name _, _ => .ok name
        | .keyed key child, hp => do
          have := sizeOf_type_parts hbare h (.keyed key child) hp key (by simp [Part.values])
          return memberName (← render key)
        | .broken, _ => .error v.mismatch
      let values ← ps.attach.mapM fun ⟨p, hp⟩ =>
        match p, hp with
        | .named name child, hp =>
          have := sizeOf_type_parts hbare h (.named name child) hp child (by simp [Part.values])
          render child
        | .keyed key child, hp =>
          have := sizeOf_type_parts hbare h (.keyed key child) hp child (by simp [Part.values])
          render child
        | .broken, _ => .error v.mismatch
      return names.zip values
termination_by (sizeOf v.type, 0)

end

end Michelson.TypedValue
