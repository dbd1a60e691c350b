/-
# The items of storage

A storage value is a tree without names; its type has the names.  Aligning goes through the type
and a queue of values together: nested pairs are spliced on both sides, so the layout of pairs does
not matter.  `align` finds the items of a storage value, each with the name it asks for, and
`namedItems` gives every item a name of its own.
-/
import Michelson.Address
import Michelson.ContractFault
import Michelson.Expr.Comb
import Michelson.Names

namespace Michelson

/-- Where the name of a node comes from. -/
inductive NameSource where
  /-- From the node alone. -/
  | own
  /-- From the node, else from a node around it. -/
  | inherited (name : String)
  /-- From the key of a map entry, whatever the node says. -/
  | forced (name : String)
deriving DecidableEq, Repr

namespace NameSource

/-- The name that a node asks for. -/
def nameFor (source : NameSource) (type : Expr) : Option String :=
  match source with
  | own => type.label?
  | inherited name => type.label? <|> some name
  | forced name => some name

/-- Where the part of an option, a choice or a list takes its name from. -/
def within (source : NameSource) (type : Expr) : NameSource :=
  match source with
  | forced name => forced name
  | source =>
    match source.nameFor type with
    | some name => inherited name
    | none => own

end NameSource

/-- A value with the type node it was aligned with and the name it asks for. -/
structure Aligned where
  /-- The name asked for. -/
  wanted : Option String
  /-- The primitive of the type node. -/
  prim : Primitive
  /-- The type node. -/
  type : Expr
  /-- The value. -/
  value : Expr

/-- An item of storage. -/
structure Storage.Item where
  /-- The name, different from those of all other items. -/
  name : String
  /-- The primitive of the type node. -/
  prim : Primitive
  /-- The type node. -/
  type : Expr
  /-- The value. -/
  value : Expr

namespace Storage

/-- A result, or a fault of shape. -/
abbrev Shaped (α : Type) := Except ShapeFault α

/-- The name that the key of a map entry gives: a text, ASCII bytes, or an address. -/
def nameOfKey? (key : Expr) : Option String :=
  match key with
  | .literal (.string s) _ => if s = "" then none else some s
  | .literal (.bytes b) _ =>
    if Bytes.isAscii b then some (Utf8.ofAscii b)
    else match Address.ofBytes b with
      | .ok a => some a.toText
      | .error _ => none
  | _ => none

/-- The name of an entry of a map: from its key, else from the map and the position. -/
def entryName (type : Expr) (position : Nat) (key : Expr) : String :=
  (nameOfKey? key).getD (Names.numbered (type.label?.getD TypeConstructor.map.name) position)

/-- The items of a sequence. -/
def sequenceItems (prim : Primitive) (value : Expr) : Shaped (List Expr) :=
  match value with
  | .seq items _ => .ok items
  | value => .error (.notSequence prim value)

/-- A fault when values are left after a type. -/
def exactly (type : Expr) (result : List Aligned × List Expr) : Shaped (List Aligned) :=
  match result with
  | (items, []) => .ok items
  | (_, rest) => .error (.leftOver rest.length type)

/-- The items of the entries of a map from `position` on, each entry with `align`. -/
def alignEntries (type : Expr) (align : NameSource → Expr → Shaped (List Aligned)) :
    (position : Nat) → List Expr → Shaped (List Aligned)
  | _, [] => .ok []
  | position, .app (.data .elt) [key, value] _ _ _ :: rest => do
    let items ← align (.forced (entryName type position key)) value
    let others ← alignEntries type align (position + 1) rest
    return items ++ others
  | _, entry :: _ => .error (.notEntry entry)

/-- The items of the elements of a list, each with `align`. -/
def alignElements (align : Expr → Shaped (List Aligned)) : List Expr → Shaped (List Aligned)
  | [] => .ok []
  | e :: rest => do
    let items ← align e
    let others ← alignElements align rest
    return items ++ others

mutual

/-- Links a type with the values at the front of a queue; returns the items and the values left.
`used` counts the values before the queue. -/
def align (source : NameSource) (used : Nat) (queue : List Expr) :
    Expr → Shaped (List Aligned × List Expr)
  | .app p args annots w u =>
    let type := Expr.app p args annots w u
    match p with
    | .keyword .storage =>
      match args with
      | [] => .error .storageWithoutType
      | inner :: _ => align source used queue inner
    | .type .pair => alignAll source used queue args
    | p =>
      match queue with
      | [] => .error (.exhausted p used)
      | value :: rest =>
        Except.map (fun items => (items, rest)) <| match p with
          | .type .bigMap =>
            match value.int? with
            | some _ => .ok [⟨source.nameFor type, p, type, value⟩]
            | none => .error (.notMapId value)
          | .type .map =>
            match args with
            | _ :: valueType :: _ => do
              let entries ← sequenceItems p value
              alignEntries type (fun source v => do
                exactly valueType (← align source 0 v.pairLeaves valueType)) 0 entries
            | _ => .error (.missingArgument type 1)
          | .type .option =>
            match value with
            | .app (.data .some) [] _ _ _ => .error .noPayload
            | .app (.data .some) (inner :: _) _ _ _ =>
              match args with
              | [] => .error (.missingArgument type 0)
              | valueType :: _ => do
                exactly valueType (← align (source.within type) 0 inner.pairLeaves valueType)
            | .app (.data .none) _ _ _ _ => .ok [⟨source.nameFor type, p, type, value⟩]
            | value => .error (.notOption value)
          | .type .list =>
            match args with
            | [] => .error (.missingArgument type 0)
            | itemType :: _ => do
              let elements ← sequenceItems p value
              alignElements (fun v => do
                exactly itemType (← align (source.within type) 0 v.pairLeaves itemType)) elements
          | .type .or =>
            match value with
            | .app (.data .left) [] _ _ _ => .error .noBranchPayload
            | .app (.data .right) [] _ _ _ => .error .noBranchPayload
            | .app (.data .left) (inner :: _) _ _ _ =>
              match args with
              | leftType :: _ => do
                exactly leftType (← align (source.within type) 0 inner.pairLeaves leftType)
              | [] => .error (.missingArgument type 0)
            | .app (.data .right) (inner :: _) _ _ _ =>
              match args with
              | _ :: rightType :: _ => do
                exactly rightType (← align (source.within type) 0 inner.pairLeaves rightType)
              | _ => .error (.missingArgument type 1)
            | value => .error (.notChoice value)
          | p => .ok [⟨source.nameFor type, p, type, value⟩]
  | tree => .error (.notAType tree)

/-- Links types one after the other with the values at the front of a queue. -/
def alignAll (source : NameSource) (used : Nat) (queue : List Expr) :
    List Expr → Shaped (List Aligned × List Expr)
  | [] => .ok ([], queue)
  | type :: types => do
    let (items, rest) ← align source used queue type
    let (others, rest) ← alignAll source (used + (queue.length - rest.length)) rest types
    return (items ++ others, rest)

end

/-- The base of the names of big maps that ask for none. -/
def bigMapBase : String := "bigmap"

/-- The base of a name for a node that asks for none. -/
def defaultName (prim : Primitive) : String :=
  if prim = .type .bigMap then bigMapBase else prim.name

/-- Gives a name to every aligned value in turn. -/
def nameItems (items : List Aligned) : List Item :=
  let names := Names.assign (fun used i => Names.freshOr used i.wanted (defaultName i.prim)) [] items
  (items.zip names).map fun (i, name) => ⟨name, i.prim, i.type, i.value⟩

/-- The items of a storage value in the order of the type, before they are named. -/
def alignValue (type value : Expr) : Shaped (List Aligned) := do
  exactly type (← align .own 0 value.pairLeaves type)

/-- The named items of a storage value in the order of the type. -/
def namedItems (type value : Expr) : Shaped (List Item) := do
  return nameItems (← alignValue type value)

end Storage

end Michelson
