/-
# Programs

A program is a sequence of sections: the types of the parameter and of storage, the code, and
views.  A tree that is no such sequence is kept whole, so that writing a program gives back what
was read.
-/
import Michelson.ContractFault
import Michelson.Expr.Json

namespace Michelson

/-- The sections of a program. -/
structure Program where
  /-- The section with the type of the parameter. -/
  param : Option Expr
  /-- The section with the type of storage. -/
  storage : Option Expr
  /-- The section with the code. -/
  code : Option Expr
  /-- The sections of the views in their order. -/
  views : List Expr
  /-- A tree that is no sequence of sections. -/
  raw : Option Expr

namespace Program

/-- The program without sections. -/
def empty : Program := ⟨none, none, none, [], none⟩

/-- The program that is no sequence of sections. -/
def ofRaw (tree : Expr) : Program := { empty with raw := some tree }

/-- Adds a section; of several parameter, storage or code sections the last counts. -/
def addSection? (p : Program) (tree : Expr) : Option Program :=
  match tree.prim? with
  | some (.keyword .parameter) => some { p with param := some tree }
  | some (.keyword .storage) => some { p with storage := some tree }
  | some (.keyword .code) => some { p with code := some tree }
  | some (.keyword .view) => some { p with views := p.views ++ [tree] }
  | _ => none

/-- The program of a tree. -/
def ofTree (root : Expr) : Program :=
  match root with
  | .seq items _ => (items.foldlM addSection? empty).getD (ofRaw root)
  | root => ofRaw root

/-- Whether the program is kept as a tree that is no sequence of sections. -/
def isRaw (p : Program) : Bool := p.raw.isSome

/-- The type in a section. -/
def typeWithin? (tree : Option Expr) : Option Expr := tree.bind (Expr.arg? 0)

/-- The type of the parameter. -/
def parameterType? (p : Program) : Option Expr := typeWithin? p.param

/-- The type of storage. -/
def storedType? (p : Program) : Option Expr := typeWithin? p.storage

/-- Whether a program has the types of the parameter and of storage. -/
def isValid (p : Program) : Bool :=
  !p.isRaw && p.parameterType?.isSome && p.storedType?.isSome

/-- The tree of a program: the parameter, storage and code sections and the views. -/
def toTree (p : Program) : Expr :=
  match p.raw with
  | some tree => tree
  | none => .list (p.param.toList ++ p.storage.toList ++ p.code.toList ++ p.views)

/-- The sections and the raw tree, the views last. -/
def sections (p : Program) : List Expr :=
  p.param.toList ++ p.storage.toList ++ p.code.toList ++ p.raw.toList ++ p.views

/-- The binary form: the tree behind its length. -/
def encode (p : Program) : Except Error Bytes := do
  encodeBlock (← p.toTree.encode)

/-- Reads a program from a document. -/
def ofDocument (levels : Nat) (d : Document) : Except ReadFault Program :=
  (Expr.ofDocument levels d).map ofTree

end Program

/-- A reader of contract data in bytes. -/
abbrev ContractDecoder (α : Type) := EStateM ContractFault Bytes α

namespace ContractDecoder

variable {α : Type}

/-- A decoder as a reader of contract data. -/
def ofDecoder (d : Decoder α) : ContractDecoder α := fun b =>
  match d b with
  | .ok a rest => .ok a rest
  | .error e rest => .error (.core e) rest

/-- Reads a length of four bytes with at least that many bytes behind it. -/
def frame : ContractDecoder Nat := do
  let size ← ofDecoder Decoder.word
  fun b => if b.length < size then .error (.core .shortBuffer) b else .ok size b

/-- Reads a tree behind its length.  The length has to be that of the tree. -/
def framed (part : String) : ContractDecoder Expr := do
  let size ← frame
  let before ← get
  let tree ← ofDecoder (Expr.decoder Expr.defaultLimit)
  let after ← get
  let read := before.length - after.length
  if read = size then return tree else throw (.framing (.size part size read))

/-- Reads a value that takes up a whole byte string. -/
def runAll (d : ContractDecoder α) (b : Bytes) : Except ContractFault α :=
  match d b with
  | .ok a [] => .ok a
  | .ok _ rest => .error (.core (.trailingBytes rest.length))
  | .error e _ => .error e

end ContractDecoder

namespace Program

/-- Reads the binary form of a program. -/
def decoder : ContractDecoder Program := do
  return ofTree (← ContractDecoder.framed "script")

/-- The program that a byte string spells. -/
def decode (b : Bytes) : Except ContractFault Program := decoder.runAll b

end Program

end Michelson
