/-
# Entrypoints

A parameter type is a tree of two-way choices.  Every way through the choices that ends at another
type is an entrypoint of the contract, and so is a choice that has a field name of its own.  A call
is routed by the `Left` and `Right` constructors around its argument.
-/
import Michelson.Expr.Json
import Michelson.Names

namespace Michelson

/-- A side of a choice. -/
inductive Branch where
  | left | right
deriving DecidableEq, Repr

namespace Branch

/-- The letter of a side in a path. -/
def letter : Branch → Char
  | left => 'L'
  | right => 'R'

/-- The name of a side. -/
def name : Branch → String
  | left => "Left"
  | right => "Right"

/-- The sides by their names. -/
def choices : List (String × Branch) := [("Left", left), ("Right", right)]

/-- The data constructor of a side. -/
def constructor : Branch → DataConstructor
  | left => .left
  | right => .right

/-- Reads the name of a side. -/
def ofDocument (levels : Nat) (d : Document) : Except ReadFault Branch :=
  Document.readChoice choices levels d

/-- The JSON form of a side. -/
def toJson (b : Branch) : Json := .text b.name

end Branch

/-- An entrypoint of a contract. -/
structure Entrypoint where
  /-- The position in the list of entrypoints. -/
  id : Nat
  /-- The name. -/
  name : String
  /-- The sides to take from the root of the parameter type. -/
  branch : List Branch
  /-- The type of the argument. -/
  type : Expr

namespace Expr

/-- Whether a type is a choice between two types. -/
def isChoice (e : Expr) : Bool := e.applies (.type .or) && e.args.length == 2

mutual

/-- The choices and their alternatives from the root down, left before right, each with the sides
that lead to it.  `branch` leads to the tree itself. -/
def choicePositions (branch : List Branch) : Expr → List (List Branch × Expr)
  | literal l u => [(branch, literal l u)]
  | seq items u => [(branch, seq items u)]
  | app p args annots w u =>
    (branch, app p args annots w u) ::
      if p = .type .or && args.length == 2 then alternatives branch [.left, .right] args else []

/-- The positions below a choice, its alternatives on these sides. -/
def alternatives (branch : List Branch) : List Branch → List Expr → List (List Branch × Expr)
  | side :: sides, e :: rest =>
    choicePositions (branch ++ [side]) e ++ alternatives branch sides rest
  | _, _ => []

end

end Expr

/-- The name of an entrypoint without a field name. -/
def defaultEntrypoint : String := "default"

namespace Entrypoint

/-- Whether a position of a parameter type is an entrypoint: it is no choice or has a field name. -/
def isListed (e : Expr) : Bool := !e.isChoice || e.fieldName?.isSome

/-- The entrypoints of a parameter type, named by their fields.  A name that is taken gets a
number. -/
def ofType (parameter : Expr) : List Entrypoint :=
  let positions := (parameter.choicePositions []).filter fun p => isListed p.2
  let names := Names.assign (fun used p => Names.fresh used (p.2.fieldName?.getD defaultEntrypoint))
    [] positions
  (positions.zip names).mapIdx fun id (p, name) => ⟨id, name, p.1, p.2⟩

/-- The sides to an entrypoint as letters. -/
def path (e : Entrypoint) : String := String.ofList (e.branch.map Branch.letter)

/-- The value that calls an entrypoint with an argument. -/
def call (e : Entrypoint) (argument : Expr) : Expr :=
  e.branch.foldr (fun side v => Expr.data1 side.constructor v) argument

/-- Whether an entrypoint takes no argument. -/
def isUnit (e : Entrypoint) : Bool := e.type.applies (.type .unit)

/-- The entrypoint with a name. -/
def find? (name : String) (entrypoints : List Entrypoint) : Option Entrypoint :=
  entrypoints.find? fun e => e.name == name

/-- The path of the entrypoint of a parameter type with a name. -/
def pathTo? (parameter : Expr) (name : String) : Option String :=
  (find? name (ofType parameter)).map path

/-- The side that a value takes. -/
def side? (value : Expr) : Option Branch :=
  match value.prim? with
  | some (.data .left) => some .left
  | some (.data .right) => some .right
  | _ => none

/-- The entrypoint that a value calls after the given sides, and its argument.  A choice with a
name of its own does not take the call: it goes on to one of the alternatives. -/
def route (entrypoints : List Entrypoint) : (branch : List Branch) → Expr →
    Option (Entrypoint × Expr)
  | branch, .app p args annots w u =>
    match entrypoints.find? fun e => e.branch == branch && !e.type.applies (.type .or) with
    | some e => some (e, .app p args annots w u)
    | none =>
      match side? (.app p args annots w u), args with
      | some side, argument :: _ => route entrypoints (branch ++ [side]) argument
      | _, _ => none
  | branch, value =>
    (entrypoints.find? fun e => e.branch == branch && !e.type.applies (.type .or)).map (·, value)

/-- The entrypoint that a value calls, and its argument. -/
def called? (entrypoints : List Entrypoint) (value : Expr) : Option (Entrypoint × Expr) :=
  route entrypoints [] value

/-! ### The JSON form -/

/-- The JSON form of an entrypoint. -/
def toJson (e : Entrypoint) : Json :=
  .object [("id", .int e.id), ("name", .text e.name), ("branch", .array (e.branch.map Branch.toJson)),
    ("type", e.type.toJson)]

/-- The fields of an entrypoint as far as they are read. -/
structure Draft where
  /-- The position. -/
  id : Option Nat
  /-- The name. -/
  name : Option String
  /-- The sides. -/
  branch : Option (List Branch)
  /-- The type. -/
  type : Option Expr

/-- The fields of an entrypoint. -/
def fields : List (Document.Field Draft) := [
  ⟨"id", false, fun s => s.id.isSome, fun _ d s => do
    return { s with id := some (← d.readCount) }⟩,
  ⟨"name", false, fun s => s.name.isSome, fun _ d s => do
    return { s with name := some (← d.readString) }⟩,
  ⟨"branch", false, fun s => s.branch.isSome, fun levels d s => do
    return { s with branch := some (← d.readList Branch.ofDocument levels) }⟩,
  ⟨"type", false, fun s => s.type.isSome, fun levels d s => do
    return { s with type := some (← Expr.ofDocument levels d) }⟩]

/-- Reads an entrypoint. -/
def ofDocument (levels : Nat) (d : Document) : Except ReadFault Entrypoint := do
  let s ← d.readRecord "struct Entrypoint" fields ⟨none, none, none, none⟩ levels
  let id ← Document.needField "id" s.id
  let name ← Document.needField "name" s.name
  let branch ← Document.needField "branch" s.branch
  let type ← Document.needField "type" s.type
  return ⟨id, name, branch, type⟩

end Entrypoint

end Michelson
