/-
# Errors

The ways in which bytes, JSON or text can fail to be an expression tree, a number, an address, a
key or a signature.  Each error names its cause; `Error.message` puts it into words.
-/
import Michelson.Bytes.Hex
import Michelson.Expr
import Michelson.Scheme

namespace Michelson

/-- Why bytes or text are no whole number. -/
inductive IntegerFault where
  /-- The last of several bytes holds no digit. -/
  | trailingZero
  /-- Zero with a sign. -/
  | negativeZero
  /-- A text that is not a decimal number. -/
  | notDecimal (text : String)
deriving DecidableEq, Repr

/-- Why a list of annotations is refused. -/
inductive AnnotationFault where
  /-- A node says that it has annotations and has none. -/
  | emptyList
  /-- The bytes of the list are not text. -/
  | notUtf8
  /-- A list with an empty annotation, or an annotation that is empty or has a space. -/
  | malformed (text : String)
  /-- A JSON value, given by its text, that is no annotation. -/
  | notAnnot (json : String)
deriving DecidableEq, Repr

/-- Why a length is refused. -/
inductive LengthFault where
  /-- A declared length goes beyond the bytes that are left. -/
  | declared (length remaining : Nat)
  /-- A payload is too long for its length prefix. -/
  | tooLong (length : Nat)
  /-- The bytes are too few or too many for an address. -/
  | addressBytes (length : Nat)
  /-- The text of an address holds too few or too many bytes. -/
  | addressText (text : String)
  /-- The bytes are too few or too many for a key. -/
  | key (scheme : Scheme) (length : Nat)
  /-- The bytes are too few or too many for a signature. -/
  | signatureBytes (length : Nat)
  /-- The text of a signature holds too few or too many bytes. -/
  | signatureText (text : String)
deriving DecidableEq, Repr

/-- Why a JSON value is no expression tree. -/
inductive TreeFault where
  /-- A member of a node has a value of the wrong form. -/
  | member (name wanted : String)
  /-- An object has none of the members of a node. -/
  | unexpectedObject (names : List String)
  /-- A JSON value, given by its text, is neither an object nor an array. -/
  | unexpectedValue (json : String)
deriving DecidableEq, Repr

/-- Why a tree cannot be unpacked. -/
inductive UnpackFault where
  /-- The node is no byte string. -/
  | notBytes (kind : Kind)
  /-- The bytes have none of the packed forms. -/
  | notPacked
deriving DecidableEq, Repr

/-- What a base58-check text is read as. -/
inductive CheckedText where
  | address | key | signature
deriving DecidableEq, Repr

/-- Why a text is not base58-check text of the wanted sort. -/
inductive Base58Fault where
  /-- The byte at this position is no base-58 digit. -/
  | badDigit (byte : UInt8) (position : Nat)
  /-- The number is too large. -/
  | overflow
  /-- There is no room for the leading bytes and the checksum. -/
  | tooShort (text : String)
  /-- The checksum does not fit the bytes before it. -/
  | badChecksum (text : String)
  /-- The bytes do not start with the leading bytes of the wanted sort. -/
  | unexpectedHead (text : String)
  /-- The text starts like nothing of the wanted sort. -/
  | unknownHead (wanted : CheckedText) (text : String)
deriving DecidableEq, Repr

/-- An error of reading or writing. -/
inductive Error where
  /-- More bytes are needed than there are. -/
  | shortBuffer
  /-- A tag byte with no meaning. -/
  | invalidTag (tag : UInt8)
  /-- A byte that is the code of no primitive. -/
  | unknownCode (code : UInt8)
  /-- A text that is the name of no primitive. -/
  | unknownPrimitive (name : String)
  /-- Not a whole number. -/
  | invalidInteger (fault : IntegerFault)
  /-- The bytes of a text are not UTF-8. -/
  | invalidString
  /-- A bad list of annotations. -/
  | invalidAnnot (fault : AnnotationFault)
  /-- A bad length. -/
  | invalidLength (fault : LengthFault)
  /-- The tree nests deeper than the limit. -/
  | depthExceeded (limit : Nat)
  /-- Bytes are left after a complete tree. -/
  | trailingBytes (count : Nat)
  /-- A JSON value that is no tree. -/
  | invalidJson (fault : TreeFault)
  /-- Bytes that cannot be unpacked. -/
  | unpack (fault : UnpackFault)
  /-- A bad base58-check text. -/
  | base58 (fault : Base58Fault)
  /-- A bad hexadecimal text. -/
  | hex (fault : HexFault)
  /-- A text that is not JSON, or exceeds the limits of JSON. -/
  | malformedJson
deriving DecidableEq, Repr

/-- What is wrong with a number, in words. -/
def IntegerFault.message : IntegerFault → String
  | trailingZero => "trailing zero byte"
  | negativeZero => "negative zero"
  | notDecimal text => text

/-- What is wrong with annotations, in words. -/
def AnnotationFault.message : AnnotationFault → String
  | emptyList => "empty annotation list in annotated node"
  | notUtf8 => "not valid utf-8"
  | malformed text => Text.quote text
  | notAnnot json => json

/-- What is wrong with a length, in words. -/
def LengthFault.message : LengthFault → String
  | declared length remaining =>
    "declared " ++ toString length ++ " bytes but only " ++ toString remaining ++ " remain"
  | tooLong length => toString length ++ " exceeds u32"
  | addressBytes length => "address must be 22 bytes, got " ++ toString length
  | addressText text => "address hash in " ++ text
  | key scheme length =>
    scheme.name ++ " key must be " ++ toString scheme.keyLength ++ " bytes, got " ++
      toString length
  | signatureBytes length => "signature must be 64 or 96 bytes, got " ++ toString length
  | signatureText text => "signature payload in " ++ text

/-- What is wrong with a JSON value, in words. -/
def TreeFault.message : TreeFault → String
  | member name wanted => name ++ " must be " ++ wanted
  | unexpectedObject names => "unexpected object with keys " ++ Text.quoteList names
  | unexpectedValue json => "unexpected value " ++ json

/-- Why unpacking fails, in words. -/
def UnpackFault.message : UnpackFault → String
  | notBytes kind => kind.name ++ " is not bytes"
  | notPacked => "bytes are not packed"

/-- The word for what a text is read as. -/
def CheckedText.word : CheckedText → String
  | address => "address"
  | key => "key"
  | signature => "signature"

/-- What is wrong with a base58-check text, in words. -/
def Base58Fault.message : Base58Fault → String
  | badDigit byte position =>
    "InvalidBase58Character(" ++ Text.quoteChar (Char.ofNat byte.toNat) ++ ", " ++
      toString position ++ ")"
  | overflow => "InvalidBase58Length"
  | tooShort text => text ++ " is too short"
  | badChecksum text => "bad checksum in " ++ text
  | unexpectedHead text => "unexpected prefix in " ++ text
  | unknownHead wanted text => "unknown " ++ wanted.word ++ " prefix in " ++ text

/-- What is wrong, in words. -/
def Error.message : Error → String
  | shortBuffer => "micheline: short buffer"
  | invalidTag tag => "micheline: invalid tag 0x" ++ Text.hexByte tag
  | unknownCode code => "Unknown michelson opcode 0x" ++ Text.hexByte code
  | unknownPrimitive name => "Unknown michelson primitive " ++ name
  | invalidInteger fault => "micheline: invalid integer: " ++ fault.message
  | invalidString => "micheline: string is not valid utf-8"
  | invalidAnnot fault => "micheline: invalid annotation: " ++ fault.message
  | invalidLength fault => "micheline: invalid length: " ++ fault.message
  | depthExceeded limit => "micheline: nesting exceeds max depth " ++ toString limit
  | trailingBytes count => "micheline: " ++ toString count ++ " unexpected extra trailer bytes"
  | invalidJson fault => "micheline: invalid json: " ++ fault.message
  | unpack fault => "micheline: unpack failed: " ++ fault.message
  | base58 fault => "micheline: invalid base58: " ++ fault.message
  | hex fault => "Serialization error: " ++ fault.message
  | malformedJson => "Serialization error: the text is not JSON"

end Michelson
