/-
# Text forms in JSON

Addresses, keys and signatures stand in JSON as their base58-check texts.
-/
import Michelson.Address
import Michelson.Json.Record
import Michelson.Key
import Michelson.Signature

namespace Michelson

/-- Reads a text and what it spells. -/
def Document.readSpelled {α : Type} (ofText : String → Except Error α) (d : Document) :
    Except ReadFault α := do
  let text ← d.readString
  match ofText text with
  | .ok a => return a
  | .error e => throw (.refused e.message)

namespace Address

/-- The JSON form of an address. -/
def toJson (a : Address) : Json := .text a.toText

/-- Reads an address. -/
def ofDocument (d : Document) : Except ReadFault Address := d.readSpelled ofText

end Address

namespace Key

/-- The JSON form of a key. -/
def toJson (k : Key) : Json := .text k.toText

/-- Reads a key. -/
def ofDocument (d : Document) : Except ReadFault Key := d.readSpelled ofText

end Key

namespace Signature

/-- The JSON form of a signature. -/
def toJson (s : Signature) : Json := .text s.toText

/-- Reads a signature. -/
def ofDocument (d : Document) : Except ReadFault Signature := d.readSpelled ofText

end Signature

end Michelson
