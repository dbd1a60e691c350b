/-
# Views

A view of a contract: a name, the types of its argument and its result, and its code.  In a program
it is a section of four parts.
-/
import Michelson.ContractFault
import Michelson.Expr.Compare
import Michelson.Expr.Json

namespace Michelson

/-- A view of a contract. -/
structure View where
  /-- The name. -/
  name : String
  /-- The type of the argument. -/
  param : Expr
  /-- The type of the result. -/
  result : Expr
  /-- The code. -/
  code : Expr

namespace View

/-- Reads a view section. -/
def ofSection (e : Expr) : Except ShapeFault View :=
  match e with
  | .app (.keyword .view) [name, param, result, code] _ _ _ =>
    match name.string? with
    | some name => .ok ⟨name, param, result, code⟩
    | none => .error .viewName
  | e => .error (.notAView e)

/-- The section of a view. -/
def toSection (v : View) : Expr :=
  .apply (.keyword .view) [.string v.name, v.param, v.result, v.code]

/-- Whether two views have the same name and types, apart from annotations. -/
def sameShape (a b : View) : Bool :=
  a.name == b.name && a.param.sameShape b.param && a.result.sameShape b.result

/-- Whether two views have the same name and types. -/
def sameTypes (a b : View) : Bool :=
  a.name == b.name && a.param.same b.param && a.result.same b.result

/-- Whether two views have the same name, types and code. -/
def same (a b : View) : Bool := a.sameTypes b && a.code.same b.code

/-- The JSON form of a view. -/
def toJson (v : View) : Json :=
  .object [("name", .text v.name), ("param", v.param.toJson), ("return", v.result.toJson),
    ("code", v.code.toJson)]

/-- The fields of a view as far as they are read. -/
structure Draft where
  /-- The name. -/
  name : Option String
  /-- The type of the argument. -/
  param : Option Expr
  /-- The type of the result. -/
  result : Option Expr
  /-- The code. -/
  code : Option Expr

/-- The fields of a view. -/
def fields : List (Document.Field Draft) := [
  ⟨"name", false, fun s => s.name.isSome, fun _ d s => do
    return { s with name := some (← d.readString) }⟩,
  ⟨"param", false, fun s => s.param.isSome, fun levels d s => do
    return { s with param := some (← Expr.ofDocument levels d) }⟩,
  ⟨"return", false, fun s => s.result.isSome, fun levels d s => do
    return { s with result := some (← Expr.ofDocument levels d) }⟩,
  ⟨"code", false, fun s => s.code.isSome, fun levels d s => do
    return { s with code := some (← Expr.ofDocument levels d) }⟩]

/-- Reads a view. -/
def ofDocument (levels : Nat) (d : Document) : Except ReadFault View := do
  let s ← d.readRecord "struct View" fields ⟨none, none, none, none⟩ levels
  let name ← Document.needField "name" s.name
  let param ← Document.needField "param" s.param
  let result ← Document.needField "return" s.result
  let code ← Document.needField "code" s.code
  return ⟨name, param, result, code⟩

end View

end Michelson
