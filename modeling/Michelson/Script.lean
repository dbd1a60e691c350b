/-
# Scripts

A script is a program with the current value of its storage.  The binary form is the tree of the
program behind its length and the tree of the value behind its length; the JSON form is an object
with the two trees.
-/
import Michelson.Constant
import Michelson.Feature
import Michelson.Packed
import Michelson.Script.Program
import Michelson.Storage.BigMaps
import Michelson.TokenInterface
import Michelson.View

namespace Michelson

/-- A program with its storage. -/
structure Script where
  /-- The program. -/
  program : Program
  /-- The value of storage. -/
  storage : Expr

namespace Script

/-! ### Forms -/

/-- The binary form. -/
def encode (s : Script) : Except Error Bytes := do
  let program ← s.program.encode
  let storage ← encodeBlock (← s.storage.encode)
  return program ++ storage

/-- Reads the binary form. -/
def decoder : ContractDecoder Script := do
  let program ← Program.decoder
  let storage ← ContractDecoder.framed "storage"
  return ⟨program, storage⟩

/-- The script that a byte string spells. -/
def decode (b : Bytes) : Except ContractFault Script := decoder.runAll b

/-- The JSON form. -/
def toJson (s : Script) : Json :=
  .object [("code", s.program.toTree.toJson), ("storage", s.storage.toJson)]

/-- The fields of a script as far as they are read. -/
structure Draft where
  /-- The program. -/
  program : Option Program
  /-- The value of storage. -/
  storage : Option Expr

/-- The fields of a script. -/
def fields : List (Document.Field Draft) := [
  ⟨"code", false, fun s => s.program.isSome, fun levels d s => do
    return { s with program := some (← Program.ofDocument levels d) }⟩,
  ⟨"storage", false, fun s => s.storage.isSome, fun levels d s => do
    return { s with storage := some (← Expr.ofDocument levels d) }⟩]

/-- Reads a script from a document. -/
def ofDocument (levels : Nat) (d : Document) : Except ReadFault Script := do
  let s ← d.readRecord "struct Script" fields ⟨none, none⟩ levels
  let program ← Document.needField "code" s.program
  let storage ← Document.needField "storage" s.storage
  return ⟨program, storage⟩

/-- Reads a section with this keyword and returns its type. -/
def typeSection (keyword : SectionKeyword) : ContractDecoder Expr := do
  let tree ← ContractDecoder.ofDecoder (Expr.decoder Expr.defaultLimit)
  match tree.arg? 0 with
  | some type =>
    if tree.applies (.keyword keyword) then return type
    else throw (.framing (.section keyword tree))
  | none => throw (.framing (.section keyword tree))

/-- Reads the types of the parameter and of storage from the front of the binary form.  They have
to be the first two sections, and nothing behind them is looked at. -/
def typesDecoder : ContractDecoder (Expr × Expr) := do
  let _ ← ContractDecoder.frame
  let tag ← ContractDecoder.ofDecoder Decoder.byte
  if tag ≠ Kind.sequence.tag then throw (.framing (.programTag tag))
  let _ ← ContractDecoder.frame
  let param ← typeSection .parameter
  let storage ← typeSection .storage
  return (param, storage)

/-- The types of the parameter and of storage in a binary script. -/
def decodeTypes (b : Bytes) : Except ContractFault (Expr × Expr) :=
  match typesDecoder b with
  | .ok types _ => .ok types
  | .error e _ => .error e

/-! ### Contents -/

/-- The entrypoints; none for a script without a parameter type. -/
def entrypoints (s : Script) : List Entrypoint :=
  match s.program.parameterType? with
  | some type => Entrypoint.ofType type
  | none => []

/-- The path of an entrypoint. -/
def pathTo? (s : Script) (name : String) : Option String :=
  s.program.parameterType?.bind fun type => Entrypoint.pathTo? type name

/-- The views by name. -/
def views (s : Script) : Except ShapeFault (NameMap View) := do
  let views ← s.program.views.mapM View.ofSection
  return NameMap.ofList (views.map fun v => (v.name, v))

/-- The hashes of the global constants that the program refers to. -/
def references (s : Script) : List String := s.program.sections.flatMap Expr.references

/-- The fingerprint of a section. -/
def sectionFingerprint (keyword : SectionKeyword) (tree : Option Expr) :
    Except ContractFault Nat :=
  match tree with
  | none => .error (.shape (.noSection keyword.name))
  | some tree =>
    match tree.fingerprint with
    | .ok n => .ok n
    | .error e => .error (.core e)

/-- The fingerprint of the parameter section. -/
def interfaceFingerprint (s : Script) : Except ContractFault Nat :=
  sectionFingerprint .parameter s.program.param

/-- The fingerprint of the storage section. -/
def storageFingerprint (s : Script) : Except ContractFault Nat :=
  sectionFingerprint .storage s.program.storage

/-- The fingerprint of the code section. -/
def codeFingerprint (s : Script) : Except ContractFault Nat :=
  sectionFingerprint .code s.program.code

/-- The numbers of the big maps in storage, by name. -/
def bigMapIds (s : Script) : Except ShapeFault (NameMap Int) :=
  match s.program.storage with
  | none => .error (.noSection SectionKeyword.storage.name)
  | some type => Storage.bigMapIds type s.storage

/-- The types of the big maps that the storage type declares, by name. -/
def declaredBigMaps (s : Script) : NameMap Expr :=
  match s.program.storage with
  | none => []
  | some type => Storage.declaredBigMaps type

/-- The features that the program makes use of. -/
def features (s : Script) : List Feature := Feature.ofTrees s.program.sections

/-! ### Expansion -/

/-- The tree that stands for a whole program which could not be taken apart: the tree itself, or
the only item of a sequence. -/
def wholeProgram (tree : Expr) : Expr :=
  match tree with
  | .seq [only] _ => only
  | tree => tree

/-- Expands a section, if it is there and nothing has failed before. -/
def expandSection (dict : Dictionary) (tree : Option Expr) (fault : Option ShapeFault) :
    Option Expr × Option ShapeFault :=
  match tree, fault with
  | some tree, none =>
    let (tree, fault) := tree.expand dict
    (some tree, fault)
  | tree, fault => (tree, fault)

/-- Expands sections up to the first fault. -/
def expandSections (dict : Dictionary) : List Expr → Option ShapeFault →
    List Expr × Option ShapeFault
  | tree :: rest, none =>
    let (tree, fault) := tree.expand dict
    let (rest, fault) := expandSections dict rest fault
    (tree :: rest, fault)
  | trees, fault => (trees, fault)

/-- Expands the sections of a program up to the first fault. -/
def expandProgram (dict : Dictionary) (p : Program) : Program × Option ShapeFault :=
  let (param, fault) := expandSection dict p.param none
  let (storage, fault) := expandSection dict p.storage fault
  let (code, fault) := expandSection dict p.code fault
  let (views, fault) := expandSections dict p.views fault
  ({ p with param, storage, code, views }, fault)

/-- Replaces the global constants of a program.  A program that is one reference as a whole is
replaced by the sections of the program it refers to.  Returns the script as it is left and the
fault that stopped the expansion, if any. -/
def expand (dict : Dictionary) (s : Script) : Script × Option ShapeFault :=
  match s.program.raw.bind fun tree => dict.lookup? (wholeProgram tree) with
  | none =>
    let (program, fault) := expandProgram dict s.program
    ({ s with program }, fault)
  | some tree =>
    let program := Program.ofTree tree
    if program.isRaw then (s, some .notAProgram)
    else
      let (program, fault) := expandProgram dict program
      ({ s with program }, fault)

end Script

end Michelson
