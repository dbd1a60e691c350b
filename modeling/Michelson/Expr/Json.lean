/-
# Expressions as JSON

Literals are objects with one member (`int`, `string` or `bytes`) whose value is a text,
applications are objects with the members `prim`, `args` and `annots`, and sequences are arrays.
Writing leaves out empty members and sorts the others by name; reading passes over members it does
not know.
-/
import Michelson.Expr.Binary
import Michelson.Json.Record
import Michelson.Text.Decimal

namespace Michelson.Expr

mutual

/-- The JSON form of a tree. -/
def toJson : Expr → Json
  | literal (.int n) _ => .object [("int", .text (toString n))]
  | literal (.string s) _ => .object [("string", .text s)]
  | literal (.bytes b) _ => .object [("bytes", .text (Bytes.toHex b))]
  | seq items _ => .array (toJsonAll items)
  | app p args annots _ _ =>
    .object ((if annots.isEmpty then [] else [("annots", .array (annots.map .text))]) ++
      (if args.isEmpty then [] else [("args", .array (toJsonAll args))]) ++
      [("prim", .text p.name)])

/-- The JSON forms of trees. -/
def toJsonAll : List Expr → List Json
  | [] => []
  | e :: rest => toJson e :: toJsonAll rest

end

/-- The compact JSON text of a tree. -/
def printJson (e : Expr) : String := e.toJson.print

/-- The value of a member that has to be a text. -/
def textMember (name wanted : String) : Json → Except Error String
  | .text s => .ok s
  | _ => .error (.invalidJson (.member name wanted))

/-- Reads an annotation. -/
def annotOf (j : Json) : Except Error String :=
  match j with
  | .text a => if isAnnot a then .ok a else .error (.invalidAnnot (.notAnnot j.print))
  | j => .error (.invalidAnnot (.notAnnot j.print))

/-- Reads the list of annotations of a node. -/
def annotsOf : Option Json → Except Error (List String)
  | none => .ok []
  | some .null => .ok []
  | some (.array items) => items.mapM annotOf
  | some _ => .error (.invalidJson (.member "annots" "an array"))

/-- Reads a literal from the members of an object. -/
def readLiteral (members : List (String × Json)) : Except Error Expr :=
  match NameMap.find? "int" members with
  | some j => do
    let text ← textMember "int" "a string" j
    match Decimal.int? text with
    | some n => .ok (int n)
    | none => .error (.invalidInteger (.notDecimal text))
  | none =>
    match NameMap.find? "string" members with
    | some j => return string (← textMember "string" "a string" j)
    | none =>
      match NameMap.find? "bytes" members with
      | some j => do
        let text ← textMember "bytes" "a hex string" j
        match Bytes.ofHex text with
        | .ok b => .ok (bytes b)
        | .error fault => .error (.hex fault)
      | none => .error (.invalidJson (.unexpectedObject (members.map Prod.fst)))

/-- Reads the name of a primitive. -/
def readPrimitive (j : Json) : Except Error Primitive := do
  let name ← textMember "prim" "a string" j
  match Primitive.ofName? name with
  | some p => .ok p
  | none => .error (.unknownPrimitive name)

/-- Reads the list of arguments of a node, each with `part`. -/
def readArgs (part : Json → Except Error Expr) : Option Json → Except Error (List Expr)
  | none => .ok []
  | some .null => .ok []
  | some (.array items) => items.mapM part
  | some _ => .error (.invalidJson (.member "args" "an array"))

/-- Reads the node of a JSON value, its parts with `part`. -/
def ofJsonNode (part : Json → Except Error Expr) : Json → Except Error Expr
  | .array items => return list (← items.mapM part)
  | .object members =>
    match NameMap.find? "prim" members with
    | none => readLiteral members
    | some name => do
      let p ← readPrimitive name
      let args ← readArgs part (NameMap.find? "args" members)
      let annots ← annotsOf (NameMap.find? "annots" members)
      return app p args annots (2 < args.length) false
  | j => .error (.invalidJson (.unexpectedValue j.print))

/-- Reads a tree of at most `levels` levels, the root included. -/
def ofJsonWithin (limit : Nat) : (levels : Nat) → Json → Except Error Expr
  | 0 => fun _ => .error (.depthExceeded limit)
  | levels + 1 => ofJsonNode (ofJsonWithin limit levels)

/-- The tree of a JSON value, of height at most `limit`. -/
def ofJson (limit : Nat) (j : Json) : Except Error Expr := ofJsonWithin limit (limit + 1) j

/-- The tree of a JSON text. -/
def ofJsonText (text : String) : Except Error Expr :=
  match Json.parse? text with
  | none => .error .malformedJson
  | some j => ofJson defaultLimit j

/-- Reads a tree from a document; its faults are the reasons to refuse the document. -/
def ofDocument (levels : Nat) (d : Document) : Except ReadFault Expr := do
  let j ← Document.readJson levels d
  match ofJson defaultLimit j with
  | .ok e => .ok e
  | .error e => .error (.refused e.message)

end Michelson.Expr
