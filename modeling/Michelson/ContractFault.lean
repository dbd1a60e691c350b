/-
# Faults of contract data

The ways in which storage, scripts, views, changes of big maps and typed values can fail to fit
together.  `ContractFault.message` puts a fault into words.
-/
import Michelson.Error
import Michelson.Expr.Text

namespace Michelson

/-- The kinds of change to a big map. -/
inductive ChangeKind where
  | update | remove | alloc | copy
deriving DecidableEq, Repr

namespace ChangeKind

/-- The kinds of change in the order of their bytes. -/
def all : List ChangeKind := [update, remove, alloc, copy]

/-- The byte of a kind of change. -/
def code : ChangeKind → UInt8
  | update => 0
  | remove => 1
  | alloc => 2
  | copy => 3

/-- The kind of change with a byte. -/
def ofCode? (c : UInt8) : Option ChangeKind := all.find? fun a => a.code == c

/-- The name of a kind of change. -/
def name : ChangeKind → String
  | update => "update"
  | remove => "remove"
  | alloc => "alloc"
  | copy => "copy"

end ChangeKind

/-- Why data do not have the shape that a type or a form asks for. -/
inductive ShapeFault where
  /-- Values are left when a type is used up. -/
  | leftOver (count : Nat) (type : Expr)
  /-- A tree that is no application stands for a type. -/
  | notAType (tree : Expr)
  /-- A storage section has no type. -/
  | storageWithoutType
  /-- The values are used up before the type. -/
  | exhausted (prim : Primitive) (count : Nat)
  /-- A big map is not given by a number. -/
  | notMapId (value : Expr)
  /-- An entry of a map is no pair of key and value. -/
  | notEntry (value : Expr)
  /-- A value of an option type is neither present nor absent. -/
  | notOption (value : Expr)
  /-- A present value is missing. -/
  | noPayload
  /-- A value of a choice takes neither side. -/
  | notChoice (value : Expr)
  /-- The value on the side of a choice is missing. -/
  | noBranchPayload
  /-- A type lacks an argument. -/
  | missingArgument (type : Expr) (position : Nat)
  /-- A value of a type of collections is no sequence. -/
  | notSequence (prim : Primitive) (value : Expr)
  /-- The number of a big map does not fit its word. -/
  | mapIdRange (id : Int)
  /-- Constants refer to one another too deeply. -/
  | expansionTooDeep
  /-- A constant in the place of a program is no program. -/
  | notAProgram
  /-- A script lacks a section. -/
  | noSection (keyword : String)
  /-- A tree is no view section. -/
  | notAView (tree : Expr)
  /-- The name of a view is no text. -/
  | viewName
  /-- A change lacks a part. -/
  | changeWithout (action : ChangeKind) (part : String)
  /-- The payload of a change does not have the shape of its kind. -/
  | changePayload (action : ChangeKind) (payload : Expr)
  /-- A byte is no kind of change. -/
  | unknownAction (code : UInt8)
  /-- A record of a change lacks a field. -/
  | missingField (name : String)
  /-- A field of a record of a change is no number of a map. -/
  | invalidField (name text : String)
  /-- A value does not fit its type. -/
  | mismatch (value type : Expr)

/-- Why the parts of a binary script do not fit their frames. -/
inductive FrameFault where
  /-- A tree is longer or shorter than declared. -/
  | size (part : String) (declared read : Nat)
  /-- A program is no sequence. -/
  | programTag (tag : UInt8)
  /-- A section is missing or out of place. -/
  | section (keyword : SectionKeyword) (found : Expr)

/-- An error in the use of contract data. -/
inductive ContractFault where
  /-- An error of reading or writing. -/
  | core (error : Error)
  /-- A frame that does not fit. -/
  | framing (fault : FrameFault)
  /-- Data of the wrong shape. -/
  | shape (fault : ShapeFault)
  /-- A path with a step that leads nowhere. -/
  | path (whole step : String)

/-- What is wrong with the shape, in words. -/
def ShapeFault.message : ShapeFault → String
  | leftOver count type => toString count ++ " values left over after " ++ type.shown
  | notAType tree => tree.shown ++ " is not a type"
  | storageWithoutType => "storage section without a type"
  | exhausted prim count =>
    "value queue exhausted at " ++ prim.name ++ " after " ++ toString count ++ " values"
  | notMapId value => "big_map value " ++ value.shown ++ " is not an id"
  | notEntry value => "map entry " ++ value.shown ++ " is not an Elt"
  | notOption value => "option value " ++ value.shown ++ " is neither Some nor None"
  | noPayload => "Some without a payload"
  | notChoice value => "or value " ++ value.shown ++ " is neither Left nor Right"
  | noBranchPayload => "or branch without a payload"
  | missingArgument type position =>
    "type " ++ type.shown ++ " is missing argument " ++ toString position
  | notSequence prim value => prim.name ++ " value " ++ value.shown ++ " is not a sequence"
  | mapIdRange id => "big_map id " ++ toString id ++ " out of range"
  | expansionTooDeep => "constant expansion nests too deep"
  | notAProgram => "constant does not expand to a program"
  | noSection keyword => "script has no " ++ keyword ++ " section"
  | notAView tree => tree.shown ++ " is not a view section"
  | viewName => "view name is not a string"
  | changeWithout action part => action.name ++ " event without " ++ part
  | changePayload action payload => "invalid " ++ action.name ++ " event payload " ++ payload.shown
  | unknownAction code => "unknown big_map action " ++ toString code.toNat
  | missingField name => "missing " ++ name
  | invalidField name text => "invalid " ++ name ++ " " ++ Text.quote text
  | mismatch value type => "value " ++ value.shown ++ " does not match type " ++ type.shown

/-- What is wrong with a frame, in words. -/
def FrameFault.message : FrameFault → String
  | size part declared read =>
    "expected " ++ part ++ " size " ++ toString declared ++ " but read " ++ toString read
  | programTag tag => "unexpected program tag 0x" ++ Text.hexByte tag
  | .section keyword found =>
    "expected " ++ keyword.name ++ " section, found " ++ found.toTextUpTo 32

/-- What is wrong, in words. -/
def ContractFault.message : ContractFault → String
  | core error => error.message
  | framing fault => "micheline: " ++ fault.message
  | shape fault => "storage shape mismatch: " ++ fault.message
  | .path whole step => "invalid value path: " ++ whole ++ ": no field " ++ Text.quote step

end Michelson
