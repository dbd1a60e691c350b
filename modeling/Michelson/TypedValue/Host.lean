/-
# Typed values as host data

The rendering of a typed value read as data of a simple form: numbers, texts, truth values, lists,
maps, and the texts of addresses, keys and signatures.  A form is named by a `HostForm`; reading
gives the rendering back as far as it has that form.
-/
import Michelson.TypedValue.Render

namespace Michelson

/-- The forms of host data. -/
inductive HostForm where
  /-- A whole number of 64 bits without a sign. -/
  | count
  /-- A whole number of 64 bits with a sign. -/
  | number
  /-- A text. -/
  | text
  /-- A truth value. -/
  | bool
  /-- The absent value. -/
  | unit
  /-- The base58-check text of an address. -/
  | address
  /-- The base58-check text of a key. -/
  | key
  /-- The base58-check text of a signature. -/
  | signature
  /-- Data of a form, or the absent value. -/
  | option (form : HostForm)
  /-- A list of data of a form. -/
  | list (form : HostForm)
  /-- Data of a form by name. -/
  | map (form : HostForm)
deriving DecidableEq, Repr

/-- Why a typed value cannot be read as host data. -/
inductive HostFault where
  /-- The value has no rendering. -/
  | shape (fault : ShapeFault)
  /-- The rendering does not have the wanted form. -/
  | form

namespace HostForm

/-- A text of some kind, written back in its own form. -/
def readText {α : Type} (ofText : String → Except Error α) (toText : α → String) (j : Json) :
    Option Json :=
  match j with
  | .text s => (ofText s).toOption.map fun a => .text (toText a)
  | _ => none

/-- Data of a form, taken from a rendering. -/
def read : HostForm → Json → Option Json
  | count, .number (.int n) => if isUInt64 n then some (.int n) else none
  | number, .number (.int n) => if isInt64 n then some (.int n) else none
  | text, .text s => some (.text s)
  | bool, .bool b => some (.bool b)
  | unit, .null => some .null
  | address, j => readText Address.ofText Address.toText j
  | key, j => readText Key.ofText Key.toText j
  | signature, j => readText Signature.ofText Signature.toText j
  | option _, .null => some .null
  | option form, j => form.read j
  | list form, .array items => (items.mapM form.read).map .array
  | map form, .object members =>
    (members.mapM fun m => (form.read m.2).map fun j => (m.1, j)).map .ofMembers
  | _, _ => none

end HostForm

/-- Reads a value as host data of a form. -/
def TypedValue.toHost (form : HostForm) (v : TypedValue) : Except HostFault Json :=
  match v.render with
  | .error fault => .error (.shape fault)
  | .ok j =>
    match form.read j with
    | none => .error .form
    | some data => .ok data

end Michelson
