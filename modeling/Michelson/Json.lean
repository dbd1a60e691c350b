/-
# JSON values

The values of the JSON data format.  An object is a list of named members in the order in which
they are written; `Json.ofMembers` is the object of a map, its members sorted by name.
-/
import Michelson.NameMap
import Michelson.Number.Binary64

namespace Michelson

/-- A JSON number: a whole number that fits a 64-bit word, or a double-precision number. -/
inductive JsonNumber where
  /-- A whole number. -/
  | int (n : Int)
  /-- A double-precision number. -/
  | float (x : Binary64)
deriving DecidableEq, Repr

/-- A JSON value. -/
inductive Json where
  /-- The absent value. -/
  | null
  /-- A truth value. -/
  | bool (b : Bool)
  /-- A number. -/
  | number (n : JsonNumber)
  /-- A text. -/
  | text (s : String)
  /-- A list of values. -/
  | array (items : List Json)
  /-- A list of named values. -/
  | object (members : List (String × Json))

namespace Json

/-- A whole number. -/
def int (n : Int) : Json := number (.int n)

/-- An object with its members sorted by name; of several of one name the last is kept. -/
def ofMembers (members : List (String × Json)) : Json :=
  object (NameMap.ofList members)

end Json

end Michelson
