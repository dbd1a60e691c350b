/-
# Changes of big maps

The changes that an operation makes to big maps.  The binary form is a stream: for each change the
number of the map in four bytes, the byte of the kind of change, and a tree with the rest.  The
JSON form is a record; the numbers of maps are decimal texts in it.
-/
import Michelson.Script.Program

namespace Michelson

/-- A change to a big map. -/
structure BigMapChange where
  /-- The kind of change. -/
  action : ChangeKind
  /-- The number of the map; of a copy, the number of the new map. -/
  id : Int
  /-- The hash of the packed key. -/
  keyHash : Option String
  /-- The key. -/
  key : Option Expr
  /-- The value. -/
  value : Option Expr
  /-- The type of the keys. -/
  keyType : Option Expr
  /-- The type of the values. -/
  valueType : Option Expr
  /-- The map that is copied. -/
  source : Int
  /-- The map that is copied to. -/
  dest : Int

namespace ChangeKind

/-- The kinds of change by their names. -/
def choices : List (String × ChangeKind) := all.map fun a => (a.name, a)

/-- Reads the name of a kind of change. -/
def ofDocument (levels : Nat) (d : Document) : Except ReadFault ChangeKind :=
  d.readChoice choices levels

/-- The JSON form of a kind of change. -/
def toJson (a : ChangeKind) : Json := .text a.name

end ChangeKind

namespace BigMapChange

/-! ### Building -/

/-- A change with nothing but its kind and map. -/
def blank (action : ChangeKind) (id : Int) : BigMapChange :=
  ⟨action, id, none, none, none, none, none, 0, 0⟩

/-- A key gets a value. -/
def update (id : Int) (key value : Expr) : BigMapChange :=
  { blank .update id with key := some key, value := some value }

/-- A key is removed, or the whole map. -/
def remove (id : Int) (key : Option Expr) : BigMapChange :=
  { blank .remove id with key }

/-- A map is made. -/
def alloc (id : Int) (keyType valueType : Expr) : BigMapChange :=
  { blank .alloc id with keyType := some keyType, valueType := some valueType }

/-- A map is copied. -/
def copy (source dest : Int) : BigMapChange :=
  { blank .copy dest with source, dest }

/-- The change with the hash of its key. -/
def addKeyHash (hash : String) (e : BigMapChange) : BigMapChange := { e with keyHash := some hash }

/-! ### The binary form -/

/-- A part that a change of this kind must have. -/
def need (e : BigMapChange) (what : String) (part : Option Expr) : Except ContractFault Expr :=
  match part with
  | some tree => .ok tree
  | none => .error (.shape (.changeWithout e.action what))

/-- The tree with the parts of a change. -/
def payload (e : BigMapChange) : Except ContractFault Expr :=
  match e.action with
  | .update => do
    let key ← e.need "key" e.key
    let value ← e.need "value" e.value
    return .data2 .pair key value
  | .remove =>
    match e.key with
    | some key => .ok (.data1 .some key)
    | none => .ok (.data0 .none)
  | .alloc => do
    let keyType ← e.need "key type" e.keyType
    let valueType ← e.need "value type" e.valueType
    return .data2 .pair keyType valueType
  | .copy => .ok (.data2 .pair (.int e.source) (.int e.dest))

/-- The two parts of a payload that is a pair. -/
def pairParts? : Expr → Option (Expr × Expr)
  | .app (.data .pair) [a, b] _ _ _ => some (a, b)
  | _ => none

/-- The number of a map in a payload, if it fits its word. -/
def mapId? (e : Expr) : Option Int := e.int?.filter isInt64

/-- The change of this kind with a payload, if the payload has the shape of the kind. -/
def ofPayload? (action : ChangeKind) (id : Int) (payload : Expr) : Option BigMapChange :=
  match action with
  | .update => (pairParts? payload).map fun (key, value) => update id key value
  | .remove =>
    match payload with
    | .app (.data .some) args _ _ _ => some (remove id args.head?)
    | .app (.data .none) _ _ _ _ => some (remove id none)
    | _ => none
  | .alloc => (pairParts? payload).map fun (keyType, valueType) => alloc id keyType valueType
  | .copy => do
    let (source, dest) ← pairParts? payload
    let source ← mapId? source
    let dest ← mapId? dest
    return { copy source dest with id }

/-- The binary form of a change. -/
def encode (e : BigMapChange) : Except ContractFault Bytes := do
  if !isInt32 e.id then throw (.shape (.mapIdRange e.id))
  match (← e.payload).encode with
  | .ok b => return Bytes.ofInt32 e.id ++ e.action.code :: b
  | .error fault => throw (.core fault)

/-- The binary form of a list of changes. -/
def encodeAll : List BigMapChange → Except ContractFault Bytes
  | [] => .ok []
  | e :: rest => do
    let head ← e.encode
    let tail ← encodeAll rest
    return head ++ tail

/-- Reads a change. -/
def decoder : ContractDecoder BigMapChange := do
  let id ← ContractDecoder.ofDecoder (Decoder.take 4)
  let code ← ContractDecoder.ofDecoder Decoder.byte
  match ChangeKind.ofCode? code with
  | none => throw (.shape (.unknownAction code))
  | some action =>
    let payload ← ContractDecoder.ofDecoder (Expr.decoder Expr.defaultLimit)
    match ofPayload? action (Bytes.toInt32 id) payload with
    | some e => return e
    | none => throw (.shape (.changePayload action payload))

/-- The changes that a byte string spells. -/
def decodeAll (b : Bytes) : Except ContractFault (List BigMapChange) :=
  Decoder.items (.core .shortBuffer) decoder b.length b

/-! ### The JSON form -/

/-- A member of a record that may be absent. -/
def member (name : String) (value : Option Json) : List (String × Json) :=
  (value.map fun j => (name, j)).toList

/-- The JSON form of a change.  A copy has the two maps, any other change the one. -/
def toJson (e : BigMapChange) : Json :=
  let isCopy := e.action == .copy
  .object (("action", e.action.toJson) ::
    member "big_map" (if isCopy then none else some (.text (toString e.id))) ++
    member "key_hash" (e.keyHash.map .text) ++
    member "key" (e.key.map Expr.toJson) ++
    member "value" (e.value.map Expr.toJson) ++
    member "key_type" (e.keyType.map Expr.toJson) ++
    member "value_type" (e.valueType.map Expr.toJson) ++
    member "source_big_map" (if isCopy then some (.text (toString e.source)) else none) ++
    member "destination_big_map" (if isCopy then some (.text (toString e.dest)) else none))

/-- The fields of a record as far as they are read; a field that is read may still be absent. -/
structure Draft where
  /-- The kind of change. -/
  action : Option ChangeKind
  /-- The number of the map. -/
  id : Option (Option String)
  /-- The hash of the key. -/
  keyHash : Option (Option String)
  /-- The key. -/
  key : Option (Option Expr)
  /-- The value. -/
  value : Option (Option Expr)
  /-- The type of the keys. -/
  keyType : Option (Option Expr)
  /-- The type of the values. -/
  valueType : Option (Option Expr)
  /-- The number of the map that is copied. -/
  source : Option (Option String)
  /-- The number of the map that is copied to. -/
  dest : Option (Option String)

/-- Reads a tree that may be absent. -/
def readTree (levels : Nat) (d : Document) : Except ReadFault (Option Expr) :=
  d.readOption (Expr.ofDocument levels)

/-- Reads a text that may be absent. -/
def readText (d : Document) : Except ReadFault (Option String) :=
  d.readOption Document.readString

/-- The fields of a record. -/
def fields : List (Document.Field Draft) := [
  ⟨"action", false, fun s => s.action.isSome, fun levels d s => do
    return { s with action := some (← ChangeKind.ofDocument levels d) }⟩,
  ⟨"big_map", true, fun s => s.id.isSome, fun _ d s => do
    return { s with id := some (← readText d) }⟩,
  ⟨"key_hash", true, fun s => s.keyHash.isSome, fun _ d s => do
    return { s with keyHash := some (← readText d) }⟩,
  ⟨"key", true, fun s => s.key.isSome, fun levels d s => do
    return { s with key := some (← readTree levels d) }⟩,
  ⟨"value", true, fun s => s.value.isSome, fun levels d s => do
    return { s with value := some (← readTree levels d) }⟩,
  ⟨"key_type", true, fun s => s.keyType.isSome, fun levels d s => do
    return { s with keyType := some (← readTree levels d) }⟩,
  ⟨"value_type", true, fun s => s.valueType.isSome, fun levels d s => do
    return { s with valueType := some (← readTree levels d) }⟩,
  ⟨"source_big_map", true, fun s => s.source.isSome, fun _ d s => do
    return { s with source := some (← readText d) }⟩,
  ⟨"destination_big_map", true, fun s => s.dest.isSome, fun _ d s => do
    return { s with dest := some (← readText d) }⟩]

/-- The number of a map in a field that must be there. -/
def fieldId (name : String) (text : Option String) : Except ShapeFault Int :=
  match text with
  | none => .error (.missingField name)
  | some text =>
    match (Decimal.signed? text).filter isInt64 with
    | some n => .ok n
    | none => .error (.invalidField name text)

/-- The change of a record.  An update without a value removes the key. -/
def ofDraft (action : ChangeKind) (s : Draft) : Except ShapeFault BigMapChange := do
  let keyHash := s.keyHash.join
  match action with
  | .copy =>
    let source ← fieldId "source_big_map" s.source.join
    let dest ← fieldId "destination_big_map" s.dest.join
    return { copy source dest with keyHash }
  | .update =>
    let id ← fieldId "big_map" s.id.join
    match s.value.join with
    | none => return { remove id s.key.join with keyHash }
    | some value => return { blank .update id with keyHash, key := s.key.join, value := some value }
  | action =>
    let id ← fieldId "big_map" s.id.join
    return { blank action id with
      keyHash, key := s.key.join, value := s.value.join,
      keyType := s.keyType.join, valueType := s.valueType.join }

/-- Reads a change from a document. -/
def ofDocument (levels : Nat) (d : Document) : Except ReadFault BigMapChange := do
  let s ← d.readRecord "struct RawEvent" fields
    ⟨none, none, none, none, none, none, none, none, none⟩ levels
  let action ← Document.needField "action" s.action
  match ofDraft action s with
  | .ok e => return e
  | .error fault => throw (.refused (ContractFault.shape fault).message)

/-- Reads a list of changes from a document. -/
def readAll (levels : Nat) (d : Document) : Except ReadFault (List BigMapChange) :=
  d.readList ofDocument levels

/-- The changes of one map. -/
def ofMap (id : Int) (changes : List BigMapChange) : List BigMapChange :=
  changes.filter fun e => e.id == id

end BigMapChange

end Michelson
