/-
# Expression trees

Code, types and values of the language share one tree: literals, sequences, and primitives applied
to arguments with annotations.  Which of the forms of the binary encoding a node takes is a
function of its shape (`Expr.kind`), apart from the application of at most two arguments that asks
for the form for any number of arguments.
-/
import Michelson.Bytes
import Michelson.Primitive

namespace Michelson

/-- A node without parts. -/
inductive Literal where
  /-- A whole number. -/
  | int (n : Int)
  /-- A text. -/
  | string (s : String)
  /-- A byte string. -/
  | bytes (b : Bytes)
deriving DecidableEq, Repr

/-- An expression tree.  `unpacked` marks the root of a tree that was read out of packed bytes. -/
inductive Expr where
  /-- A node without parts. -/
  | literal (value : Literal) (unpacked : Bool)
  /-- A sequence of expressions. -/
  | seq (items : List Expr) (unpacked : Bool)
  /-- A primitive with its arguments and annotations; `wide` asks for the encoding for any number
  of arguments even when there are at most two. -/
  | app (prim : Primitive) (args : List Expr) (annots : List String) (wide unpacked : Bool)

/-- The form of a node in the binary encoding. -/
inductive Kind where
  | int | string | bytes
  | nullary | nullaryAnnotated | unary | unaryAnnotated | binary | binaryAnnotated
  | variadic | variadicAnnotated
  | sequence
deriving DecidableEq, Repr

namespace Kind

/-- The tag byte of a form.  The two forms for any number of arguments share one tag. -/
def tag : Kind → UInt8
  | int => 0x00
  | string => 0x01
  | sequence => 0x02
  | nullary => 0x03
  | nullaryAnnotated => 0x04
  | unary => 0x05
  | unaryAnnotated => 0x06
  | binary => 0x07
  | binaryAnnotated => 0x08
  | variadic => 0x09
  | variadicAnnotated => 0x09
  | bytes => 0x0a

/-- Whether a form says that the node has annotations. -/
def isAnnotated : Kind → Bool
  | nullaryAnnotated | unaryAnnotated | binaryAnnotated | variadicAnnotated => true
  | _ => false

/-- The name of a form. -/
def name : Kind → String
  | int => "Int"
  | string => "String"
  | bytes => "Bytes"
  | nullary => "Nullary"
  | nullaryAnnotated => "NullaryAnno"
  | unary => "Unary"
  | unaryAnnotated => "UnaryAnno"
  | binary => "Binary"
  | binaryAnnotated => "BinaryAnno"
  | variadic => "Variadic"
  | variadicAnnotated => "VariadicAnno"
  | sequence => "Sequence"

/-- The form of an application with this number of arguments. -/
def ofArity (count : Nat) (annotated : Bool) : Kind :=
  match count, annotated with
  | 0, false => nullary
  | 0, true => nullaryAnnotated
  | 1, false => unary
  | 1, true => unaryAnnotated
  | 2, false => binary
  | 2, true => binaryAnnotated
  | _, false => variadic
  | _, true => variadicAnnotated

end Kind

namespace Expr

/-! ### Building -/

/-- A number. -/
def int (n : Int) : Expr := literal (.int n) false

/-- A text. -/
def string (s : String) : Expr := literal (.string s) false

/-- A byte string. -/
def bytes (b : Bytes) : Expr := literal (.bytes b) false

/-- A sequence. -/
def list (items : List Expr) : Expr := seq items false

/-- A primitive applied to arguments. -/
def apply (p : Primitive) (args : List Expr) : Expr :=
  app p args [] (2 < args.length) false

/-- A primitive without arguments. -/
def apply0 (p : Primitive) : Expr := apply p []

/-- A primitive applied to one argument. -/
def apply1 (p : Primitive) (a : Expr) : Expr := apply p [a]

/-- A primitive applied to two arguments. -/
def apply2 (p : Primitive) (a b : Expr) : Expr := apply p [a, b]

/-- A type constructor without arguments. -/
def type0 (t : TypeConstructor) : Expr := apply0 (.type t)

/-- A type constructor applied to one type. -/
def type1 (t : TypeConstructor) (a : Expr) : Expr := apply1 (.type t) a

/-- A type constructor applied to two types. -/
def type2 (t : TypeConstructor) (a b : Expr) : Expr := apply2 (.type t) a b

/-- A data constructor without arguments. -/
def data0 (d : DataConstructor) : Expr := apply0 (.data d)

/-- A data constructor applied to one value. -/
def data1 (d : DataConstructor) (a : Expr) : Expr := apply1 (.data d) a

/-- A data constructor applied to two values. -/
def data2 (d : DataConstructor) (a b : Expr) : Expr := apply2 (.data d) a b

/-- Appends an annotation; nodes other than applications have none. -/
def addAnnot (annot : String) : Expr → Expr
  | app p args annots wide unpacked => app p args (annots ++ [annot]) wide unpacked
  | e => e

/-- Sets whether an application has the form for any number of arguments even with two or fewer;
other nodes have one form. -/
def withWide (wide : Bool) : Expr → Expr
  | app p args annots _ unpacked => app p args annots wide unpacked
  | e => e

/-- Marks the root as read out of packed bytes. -/
def markUnpacked : Expr → Expr
  | literal l _ => literal l true
  | seq items _ => seq items true
  | app p args annots wide _ => app p args annots wide true

/-! ### Looking at a node -/

/-- The form of a node in the binary encoding. -/
def kind : Expr → Kind
  | literal (.int _) _ => .int
  | literal (.string _) _ => .string
  | literal (.bytes _) _ => .bytes
  | seq _ _ => .sequence
  | app _ args annots wide _ =>
    if wide then (if annots.isEmpty then .variadic else .variadicAnnotated)
    else .ofArity args.length !annots.isEmpty

/-- The applied primitive. -/
def prim? : Expr → Option Primitive
  | app p _ _ _ _ => some p
  | _ => none

/-- Whether the node applies this primitive. -/
def applies (p : Primitive) (e : Expr) : Bool := e.prim? == some p

/-- The arguments of an application or the items of a sequence. -/
def args : Expr → List Expr
  | app _ args _ _ _ => args
  | seq items _ => items
  | literal _ _ => []

/-- The node with other arguments or items; a literal stays as it is. -/
def withArgs (parts : List Expr) : Expr → Expr
  | app p _ annots wide unpacked => app p parts annots wide unpacked
  | seq _ unpacked => seq parts unpacked
  | e => e

/-- The argument or item at a position. -/
def arg? (i : Nat) (e : Expr) : Option Expr := e.args[i]?

/-- The annotations of an application. -/
def annots : Expr → List String
  | app _ _ annots _ _ => annots
  | _ => []

/-- Whether the node was marked as read out of packed bytes. -/
def isUnpacked : Expr → Bool
  | literal _ unpacked => unpacked
  | seq _ unpacked => unpacked
  | app _ _ _ _ unpacked => unpacked

/-- The value of a number. -/
def int? : Expr → Option Int
  | literal (.int n) _ => some n
  | _ => none

/-- The value of a text. -/
def string? : Expr → Option String
  | literal (.string s) _ => some s
  | _ => none

/-- The value of a byte string. -/
def bytes? : Expr → Option Bytes
  | literal (.bytes b) _ => some b
  | _ => none

/-- Whether the node is a sequence. -/
def isSequence : Expr → Bool
  | seq _ _ => true
  | _ => false

/-- Whether the node is a pair, as data or as a type. -/
def isPair (e : Expr) : Bool := e.prim?.any Primitive.isPair

/-- The hash that a reference to a global constant names. -/
def reference? : Expr → Option String
  | app .constant (a :: _) _ _ _ => a.string?
  | _ => none

/-- Whether the node is a reference to a global constant. -/
def isReference (e : Expr) : Bool := e.reference?.isSome

/-! ### Names in annotations -/

/-- The text behind `mark` in an annotation that starts with it. -/
def annotName? (mark : Char) (annot : String) : Option String :=
  match annot.toList with
  | c :: rest => if c = mark then some (String.ofList rest) else none
  | [] => none

/-- The name in the first annotation with this mark, if it is not empty. -/
def nameMarked? (mark : Char) (e : Expr) : Option String :=
  (e.annots.findSome? (annotName? mark)).filter (· ≠ "")

/-- The name of a node as a field. -/
def fieldName? (e : Expr) : Option String := e.nameMarked? '%'

/-- The name of a node as a variable. -/
def variableName? (e : Expr) : Option String := e.nameMarked? '@'

/-- The name of a node as a type. -/
def typeName? (e : Expr) : Option String := e.nameMarked? ':'

/-- The name to show: the name as a field, else as a variable, else as a type. -/
def label? (e : Expr) : Option String :=
  e.fieldName? <|> e.variableName? <|> e.typeName?

/-! ### Induction -/

/-- Induction over a tree and the lists of trees in it. -/
theorem induct {P : Expr → Prop} (literal : ∀ l u, P (.literal l u))
    (seq : ∀ items u, (∀ e ∈ items, P e) → P (.seq items u))
    (app : ∀ p args annots w u, (∀ e ∈ args, P e) → P (.app p args annots w u)) (e : Expr) : P e :=
  Expr.rec (motive_1 := P) (motive_2 := fun es => ∀ e ∈ es, P e) literal
    (fun items u ih => seq items u ih) (fun p args annots w u ih => app p args annots w u ih)
    (fun _ h => nomatch h)
    (fun _ _ head tail _ h => by
      cases h with
      | head => exact head
      | tail _ h => exact tail _ h) e

end Expr

end Michelson
