/-
# Parts of types

The key and value types that a type of collections is made of.
-/
import Michelson.Expr

namespace Michelson.Expr

/-- The type of the keys of a map. -/
def keyType? (type : Expr) : Option Expr :=
  match type.prim? with
  | some (.type .map) | some (.type .bigMap) => type.arg? 0
  | _ => none

/-- The type of the values of a map, or of what a type of one argument holds. -/
def valueType? (type : Expr) : Option Expr :=
  match type.prim? with
  | some (.type .map) | some (.type .bigMap) => type.arg? 1
  | some (.type .list) | some (.type .set) | some (.type .option) | some (.type .ticket)
  | some (.type .contract) => type.arg? 0
  | _ => none

end Michelson.Expr
