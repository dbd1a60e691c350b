/-
# Big maps in storage

A big map is kept outside storage and stands in it as a number.  The numbers are found by aligning
the storage value with its type; the types of all big maps are found in the storage type alone.
-/
import Michelson.Expr.Traversal
import Michelson.NameMap
import Michelson.Storage.Items
import Michelson.Text.Decimal

namespace Michelson.Storage

/-- The number of a big map as a word of 64 bits. -/
def mapId (value : Expr) : Shaped Int :=
  match value.int? with
  | some n => if isInt64 n then .ok n else .error (.mapIdRange n)
  | none => .error (.notMapId value)

/-- The numbers of the big maps among some items, by name. -/
def mapIds : List Item → Shaped (List (String × Int))
  | [] => .ok []
  | i :: rest =>
    if i.prim = .type .bigMap then do
      let id ← mapId i.value
      let ids ← mapIds rest
      return (i.name, id) :: ids
    else mapIds rest

/-- The numbers of the big maps in a storage value, by name. -/
def bigMapIds (type value : Expr) : Shaped (NameMap Int) := do
  let items ← namedItems type value
  return NameMap.ofList (← mapIds items)

/-- Whether the search for types of big maps stays out of the parts of a type. -/
def isClosedType (type : Expr) : Bool :=
  type.applies (.type .bigMap) || type.applies (.type .map) || type.applies (.type .list) ||
    type.applies (.type .lambda)

/-- The type of a big map that a visited type is, or holds directly as its values or items, and the
label that names it. -/
def declaredBigMap? (type : Expr) : Option (Option String × Expr) :=
  let held (part : Option Expr) : Option (Option String × Expr) :=
    (part.filter fun t => t.applies (.type .bigMap)).map fun t => (t.label? <|> type.label?, t)
  match type.prim? with
  | some (.type .bigMap) => some (type.label?, type)
  | some (.type .map) => held (type.arg? 1)
  | some (.type .list) => held (type.arg? 0)
  | _ => none

/-- The types of the big maps in a storage type, by name. -/
def declaredBigMaps (type : Expr) : NameMap Expr :=
  let found := (type.visited isClosedType).filterMap declaredBigMap?
  let names := Names.assign (fun used t => Names.freshOr used t.1 bigMapBase) [] found
  NameMap.ofList (names.zip (found.map Prod.snd))

end Michelson.Storage
