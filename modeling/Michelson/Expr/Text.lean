/-
# Expressions as text

The one-line text of a tree, as it stands in messages: literals in their usual notation, sequences
in braces, and an application as its primitive, annotations and arguments, an argument in
parentheses when it has parts or annotations itself.
-/
import Michelson.Bytes.Hex
import Michelson.Expr

namespace Michelson

/-- The text of a literal. -/
def Literal.toText : Literal → String
  | int n => toString n
  | string s => Text.quote s
  | bytes b => "0x" ++ Bytes.toHex b

namespace Expr

/-- Whether a node stands in parentheses as an argument. -/
def isCompound : Expr → Bool
  | app _ args annots _ _ => !args.isEmpty || !annots.isEmpty
  | _ => false

mutual

/-- The text of a tree. -/
def toText : Expr → String
  | literal l _ => l.toText
  | seq items _ => "\x7b" ++ itemsText items ++ " \x7d"
  | app p args annots _ _ =>
    p.name ++ String.join (annots.map (" " ++ ·)) ++ argsText args

/-- The items of a sequence, separated by semicolons. -/
def itemsText : List Expr → String
  | [] => ""
  | [e] => " " ++ toText e
  | e :: rest => " " ++ toText e ++ " ;" ++ itemsText rest

/-- The arguments of an application. -/
def argsText : List Expr → String
  | [] => ""
  | e :: rest =>
    (if e.isCompound then " (" ++ toText e ++ ")" else " " ++ toText e) ++ argsText rest

end

/-- The first `limit` characters of the text of a tree. -/
def toTextUpTo (limit : Nat) (e : Expr) : String :=
  String.ofList (e.toText.toList.take limit)

/-- The length of the texts of trees in messages. -/
def shownLength : Nat := 64

/-- The text of a tree as it stands in messages. -/
def shown (e : Expr) : String := e.toTextUpTo shownLength

end Expr

end Michelson
