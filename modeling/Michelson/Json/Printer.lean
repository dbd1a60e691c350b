/-
# Printing JSON

Compact JSON text: no spaces, members in their order, short escapes for the usual control
characters and `\u00xx` for the others.  Numbers are written with the fewest digits that identify
them.
-/
import Michelson.Json
import Michelson.Text.Quoted

namespace Michelson

namespace JsonNumber

/-- `count` zeros. -/
private def zeros (count : Int) : String :=
  String.ofList (List.replicate count.toNat '0')

/-- The digits of a magnitude with the decimal point after `point` of them. -/
private def positional (digits : List Char) (point : Int) : String :=
  if point ≤ 0 then "0." ++ zeros (-point) ++ String.ofList digits
  else if digits.length ≤ point.toNat then
    String.ofList digits ++ zeros (point - digits.length) ++ ".0"
  else
    String.ofList (digits.take point.toNat) ++ "." ++ String.ofList (digits.drop point.toNat)

/-- The sign, the shortest digits and the place of the decimal point of a number. -/
private def parts (x : Binary64) : String × List Char × Int :=
  let (n, power) := x.shortest
  let digits := Nat.toDigits 10 n
  (if x.negative then "-" else "", digits, digits.length + power)

/-- A power of ten with its sign, which is written for positive powers too. -/
private def signed (power : Int) : String :=
  if 0 ≤ power then "+" ++ toString power else toString power

/-- The digits of a magnitude with the decimal point after the first one, and a power of ten. -/
private def scientific (digits : List Char) (power : Int) : String :=
  let tail := digits.drop 1
  String.ofList (digits.take 1) ++ (if tail.isEmpty then "" else "." ++ String.ofList tail) ++
    "e" ++ signed power

/-- A double-precision number as JSON: positional for up to sixteen digits before the point and up
to four zeros behind it, otherwise with a power of ten. -/
def printFloat (x : Binary64) : String :=
  let (sign, digits, point) := parts x
  sign ++
    if x.mantissa = 0 then "0.0"
    else if -5 < point && point ≤ 16 then positional digits point
    else scientific digits (point - 1)

/-- A number as JSON. -/
def print : JsonNumber → String
  | int n => toString n
  | float x => printFloat x

end JsonNumber

namespace Json

/-- A character inside a JSON text. -/
def escape (c : Char) : List Char :=
  if c = '"' then ['\\', '"']
  else if c = '\\' then ['\\', '\\']
  else if c = '\x08' then ['\\', 'b']
  else if c = '\t' then ['\\', 't']
  else if c = '\n' then ['\\', 'n']
  else if c = '\x0c' then ['\\', 'f']
  else if c = '\r' then ['\\', 'r']
  else if c.toNat < 0x20 then
    ['\\', 'u', '0', '0', Nat.digitChar (c.toNat / 16), Nat.digitChar (c.toNat % 16)]
  else [c]

/-- A text as JSON, as characters. -/
def printText (s : String) : List Char :=
  '"' :: s.toList.flatMap escape ++ ['"']

mutual

/-- The characters of the compact text of a value. -/
def printChars : Json → List Char
  | null => ['n', 'u', 'l', 'l']
  | bool true => ['t', 'r', 'u', 'e']
  | bool false => ['f', 'a', 'l', 's', 'e']
  | number n => n.print.toList
  | text s => printText s
  | array items => '[' :: printItems items ++ [']']
  | object members => '\x7b' :: printMembers members ++ ['\x7d']

/-- The items of an array, separated by commas. -/
def printItems : List Json → List Char
  | [] => []
  | [j] => printChars j
  | j :: rest => printChars j ++ ',' :: printItems rest

/-- The members of an object, separated by commas. -/
def printMembers : List (String × Json) → List Char
  | [] => []
  | [m] => printMember m
  | m :: rest => printMember m ++ ',' :: printMembers rest

/-- A member of an object. -/
def printMember : String × Json → List Char
  | (name, j) => printText name ++ ':' :: printChars j

end

/-- The compact text of a value. -/
def print (j : Json) : String := String.ofList j.printChars

end Json

end Michelson
