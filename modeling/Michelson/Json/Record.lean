/-
# Typed reading of JSON documents

Readers for texts, numbers, lists, names of a fixed choice and records.  A reader goes through a
document in its order and reports the first fault: a break of the text, a nesting too deep, or a
value that does not have the wanted form.
-/
import Michelson.Json.Document
import Michelson.Json.Printer

namespace Michelson

/-- Why a document cannot be read as a value of some type. -/
inductive ReadFault where
  /-- The text is not JSON, or exceeds its limits. -/
  | malformed
  /-- A record lacks a field. -/
  | missingField (name : String)
  /-- A record has a field twice. -/
  | duplicateField (name : String)
  /-- A name is none of the names to choose from. -/
  | unknownVariant (name : String) (known : List String)
  /-- A value of one form stands where another form is wanted. -/
  | invalidType (found expected : String)
  /-- A number is out of the wanted range. -/
  | invalidValue (found expected : String)
  /-- A record given as a list has too few items. -/
  | invalidLength (count : Nat) (expected : String)
  /-- The value has the wanted form and is refused by its own rules. -/
  | refused (reason : String)
deriving DecidableEq, Repr

namespace ReadFault

/-- The names to choose from, in words. -/
def choice : List String → String
  | [] => "there are no variants"
  | [a] => "expected `" ++ a ++ "`"
  | [a, b] => "expected `" ++ a ++ "` or `" ++ b ++ "`"
  | names => "expected one of " ++ ", ".intercalate (names.map fun n => "`" ++ n ++ "`")

/-- What is wrong, in words; nothing for a text that is not JSON. -/
def message? : ReadFault → Option String
  | malformed => none
  | missingField name => some ("missing field `" ++ name ++ "`")
  | duplicateField name => some ("duplicate field `" ++ name ++ "`")
  | unknownVariant name known => some ("unknown variant `" ++ name ++ "`, " ++ choice known)
  | invalidType found expected => some ("invalid type: " ++ found ++ ", expected " ++ expected)
  | invalidValue found expected => some ("invalid value: " ++ found ++ ", expected " ++ expected)
  | invalidLength count expected =>
    some ("invalid length " ++ toString count ++ ", expected " ++ expected)
  | refused reason => some reason

end ReadFault

namespace Document

/-- The form of a number, in words. -/
def numberForm : JsonNumber → String
  | .int n => "integer `" ++ toString n ++ "`"
  | .float x => "floating point `" ++ JsonNumber.printFloat x ++ "`"

/-- The fault of a document that does not have the expected form. -/
def mismatch (expected : String) : Document → ReadFault
  | null => .invalidType "null" expected
  | bool b => .invalidType ("boolean `" ++ toString b ++ "`") expected
  | number (some n) => .invalidType (numberForm n) expected
  | text (some s) => .invalidType ("string " ++ Text.quote s) expected
  | array _ _ => .invalidType "sequence" expected
  | object _ _ => .invalidType "map" expected
  | _ => .malformed

/-- Reads a value of any form. -/
def readJson (levels : Nat) (d : Document) : Except ReadFault Json :=
  match d.value? levels with
  | some j => .ok j
  | none => .error .malformed

/-- Reads a text. -/
def readString (d : Document) : Except ReadFault String :=
  match d with
  | text (some s) => .ok s
  | d => .error (d.mismatch "a string")

/-- Reads a count: a whole number of 64 bits without a sign. -/
def readCount (d : Document) : Except ReadFault Nat :=
  match d with
  | number (some (.int n)) =>
    if 0 ≤ n then .ok n.toNat else .error (.invalidValue (numberForm (.int n)) "usize")
  | d => .error (d.mismatch "usize")

/-- Reads the absent value as nothing, and any other with `item`. -/
def readOption {α : Type} (item : Document → Except ReadFault α) (d : Document) :
    Except ReadFault (Option α) :=
  match d with
  | null => .ok none
  | d => (item d).map some

/-- Reads a list, its items with `item` in the levels that are left. -/
def readList {α : Type} (item : Nat → Document → Except ReadFault α) (levels : Nat)
    (d : Document) : Except ReadFault (List α) :=
  match d with
  | array items closed =>
    if levels = 0 then .error .malformed
    else do
      let values ← items.mapM (item (levels - 1))
      if closed then .ok values else .error .malformed
  | d => .error (d.mismatch "a sequence")

/-- Reads one of the names to choose from: a text, or an object whose only member has the name and
the absent value. -/
def readChoice {α : Type} (choices : List (String × α)) (levels : Nat) (d : Document) :
    Except ReadFault α :=
  let choose (name : String) : Except ReadFault α :=
    match choices.lookup name with
    | some a => .ok a
    | none => .error (.unknownVariant name (choices.map Prod.fst))
  match d with
  | text (some name) => choose name
  | object ((name, value) :: rest) closed =>
    if levels = 0 then .error .malformed
    else do
      let a ← choose name
      match value with
      | null => if rest.isEmpty && closed then .ok a else .error .malformed
      | value => .error (value.mismatch "unit")
  | _ => .error .malformed

/-- A field of a record that is read into a state of type `σ`. -/
structure Field (σ : Type) where
  /-- The name of the field. -/
  name : String
  /-- Whether a list of the fields may end before this one. -/
  isOptional : Bool
  /-- Whether the state has the field already. -/
  isSet : σ → Bool
  /-- Reads the field into the state. -/
  read : Nat → Document → σ → Except ReadFault σ

/-- The fields of a record in the order of an object.  Members of other names are passed over. -/
def readMember {σ : Type} (fields : List (Field σ)) (levels : Nat) (state : σ)
    (member : String × Document) : Except ReadFault σ :=
  match fields.find? fun f => f.name == member.1 with
  | none => if member.2.isWhole then .ok state else .error .malformed
  | some f =>
    if f.isSet state then .error (.duplicateField f.name) else f.read levels member.2 state

/-- The fields of a record in the order of a list; `position` counts the fields before them. -/
def readPositions {σ : Type} (record : String) (total : Nat) (levels : Nat) (closed : Bool) :
    (position : Nat) → List (Field σ) → List Document → σ → Except ReadFault σ
  | _, [], [], state => if closed then .ok state else .error .malformed
  | _, [], _ :: _, _ => .error .malformed
  | position, f :: fields, [], state =>
    if f.isOptional then
      readPositions record total levels closed (position + 1) fields [] state
    else if closed then
      .error (.invalidLength position (record ++ " with " ++ toString total ++ " elements"))
    else .error .malformed
  | position, f :: fields, d :: items, state => do
    let state ← f.read levels d state
    readPositions record total levels closed (position + 1) fields items state

/-- Reads the fields of a record, given as an object or as a list of its fields in order. -/
def readRecord {σ : Type} (record : String) (fields : List (Field σ)) (blank : σ) (levels : Nat)
    (d : Document) : Except ReadFault σ :=
  match d with
  | object members closed =>
    if levels = 0 then .error .malformed
    else do
      let state ← members.foldlM (readMember fields (levels - 1)) blank
      if closed then .ok state else .error .malformed
  | array items closed =>
    if levels = 0 then .error .malformed
    else readPositions record fields.length (levels - 1) closed 0 fields items blank
  | d => .error (d.mismatch record)

/-- A field that a record must have. -/
def needField {α : Type} (name : String) (value : Option α) : Except ReadFault α :=
  match value with
  | some a => .ok a
  | none => .error (.missingField name)

/-- Reads a whole text with a reader of documents. -/
def readWhole {α : Type} (reader : Nat → Document → Except ReadFault α) (s : String) :
    Except ReadFault α := do
  let (d, rest) := ofChars s.toList
  let a ← reader Json.maxLevels d
  if rest.isEmpty then .ok a else .error .malformed

end Document

end Michelson
