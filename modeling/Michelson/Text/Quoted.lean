/-
# Quoted text

Texts and characters in quotes, as they stand in the texts of trees and in messages: backslash escapes for the
quote, the backslash and the usual control characters, and the code point in hexadecimal for
every other character without a glyph of its own.
-/
import Michelson.Text.Printable

namespace Michelson.Text

/-- The lower-case hexadecimal digits of a number, without leading zeros. -/
def hexDigits (n : Nat) : String :=
  String.ofList (Nat.toDigits 16 n)

/-- Two lower-case hexadecimal digits. -/
def hexByte (b : UInt8) : String :=
  String.ofList [Nat.digitChar (b.toNat / 16), Nat.digitChar (b.toNat % 16)]

/-- A character as it stands between two `mark` quotes. -/
def escape (mark c : Char) : String :=
  if c = '\x00' then "\\0"
  else if c = '\t' then "\\t"
  else if c = '\n' then "\\n"
  else if c = '\r' then "\\r"
  else if c = '\\' then "\\\\"
  else if c = mark then String.ofList ['\\', c]
  else if isPrintable c then c.toString
  else "\\u\x7b" ++ hexDigits c.toNat ++ "\x7d"

/-- A text in double quotes. -/
def quote (s : String) : String :=
  "\"" ++ String.join (s.toList.map (escape '"')) ++ "\""

/-- A character in single quotes. -/
def quoteChar (c : Char) : String :=
  "'" ++ escape '\'' c ++ "'"

/-- A list of texts in double quotes, between square brackets. -/
def quoteList (texts : List String) : String :=
  "[" ++ ", ".intercalate (texts.map quote) ++ "]"

end Michelson.Text
