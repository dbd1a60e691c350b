/-
# JSON documents

A JSON text as it is read from left to right.  A document keeps the members of an object in their
order, repeated names included, and marks the place where the text stops being JSON, so a typed
reader meets the faults of a text in the order of the text.  Limits on depth and on the range of
numbers are not part of the grammar; they are checked when a value is taken from a document.
-/
import Michelson.Json
import Michelson.Text.Decimal

namespace Michelson

/-- A JSON text as read, possibly torn. -/
inductive Document where
  /-- The absent value. -/
  | null
  /-- A truth value. -/
  | bool (b : Bool)
  /-- A number; nothing when it is out of range. -/
  | number (n : Option JsonNumber)
  /-- A text; nothing when an escape in it stands for no character. -/
  | text (s : Option String)
  /-- A list of documents, and whether the text goes on to its closing bracket. -/
  | array (items : List Document) (closed : Bool)
  /-- A list of named documents, and whether the text goes on to its closing brace. -/
  | object (members : List (String × Document)) (closed : Bool)
  /-- No JSON value starts here. -/
  | broken

namespace Document

/-! ### Blanks and texts -/

/-- The characters between the tokens of JSON. -/
def isBlank (c : Char) : Bool :=
  c == ' ' || c == '\n' || c == '\t' || c == '\r'

/-- Drops the blanks at the front. -/
def skipBlanks (cs : List Char) : List Char := cs.dropWhile isBlank

/-- The value of a hexadecimal digit. -/
def hexValue? (c : Char) : Option Nat :=
  if '0' ≤ c ∧ c ≤ '9' then some (c.toNat - 48)
  else if 'a' ≤ c ∧ c ≤ 'f' then some (c.toNat - 87)
  else if 'A' ≤ c ∧ c ≤ 'F' then some (c.toNat - 55)
  else none

/-- The number that four hexadecimal digits spell. -/
def hexWord? (a b c d : Char) : Option Nat := do
  let a ← hexValue? a
  let b ← hexValue? b
  let c ← hexValue? c
  let d ← hexValue? d
  return 4096 * a + 256 * b + 16 * c + d

/-- The character behind a backslash, for the escapes of one letter. -/
def shortEscape? (c : Char) : Option Char :=
  if c = '"' || c = '\\' || c = '/' then some c
  else if c = 'b' then some '\x08'
  else if c = 'f' then some '\x0c'
  else if c = 'n' then some '\n'
  else if c = 'r' then some '\r'
  else if c = 't' then some '\t'
  else none

/-- Whether a 16-bit unit opens a pair of units. -/
def isLead (n : Nat) : Bool := 0xd800 ≤ n && n ≤ 0xdbff

/-- Whether a 16-bit unit closes a pair of units. -/
def isTrail (n : Nat) : Bool := 0xdc00 ≤ n && n ≤ 0xdfff

/-- The character of a pair of 16-bit units. -/
def pairChar (lead trail : Nat) : Char :=
  Char.ofNat (0x10000 + (lead - 0xd800) * 0x400 + (trail - 0xdc00))

/-- A piece of a text: a character, or the 16-bit unit of a four-digit escape. -/
inductive TextPart where
  /-- A character. -/
  | char (c : Char)
  /-- A 16-bit unit. -/
  | unit (n : Nat)

/-- The characters of a text.  Two units stand for one character when they form a pair, and there
is no text when a unit of a pair stands alone. -/
def joinParts : List TextPart → Option (List Char)
  | [] => some []
  | .char c :: rest => (joinParts rest).map (c :: ·)
  | .unit n :: rest =>
    if isTrail n then none
    else if isLead n then
      match rest with
      | .unit m :: rest => if isTrail m then (joinParts rest).map (pairChar n m :: ·) else none
      | _ => none
    else (joinParts rest).map (Char.ofNat n :: ·)

/-- Reads the parts of a text behind its opening quote, up to and including the closing one. -/
def readParts : List Char → Option (List TextPart × List Char)
  | [] => none
  | '"' :: rest => some ([], rest)
  | '\\' :: 'u' :: a :: b :: c :: d :: rest => do
    let n ← hexWord? a b c d
    let (parts, rest) ← readParts rest
    return (.unit n :: parts, rest)
  | '\\' :: e :: rest => do
    let c ← shortEscape? e
    let (parts, rest) ← readParts rest
    return (.char c :: parts, rest)
  | c :: rest => do
    let (parts, rest) ← if c.toNat < 0x20 then none else readParts rest
    return (.char c :: parts, rest)

/-- Reads a text behind its opening quote. -/
def readText (cs : List Char) : Option (Option String × List Char) :=
  (readParts cs).map fun (parts, rest) => ((joinParts parts).map String.ofList, rest)

/-! ### Numbers -/

/-- Appends decimal digits to a significand as long as it fits 64 bits; returns how many of them
were taken, too. -/
def appendDigits (significand : Nat) : List Char → Nat × Nat
  | [] => (significand, 0)
  | c :: rest =>
    let next := 10 * significand + (c.toNat - 48)
    if next < 0x10000000000000000 then
      let (s, taken) := appendDigits next rest
      (s, taken + 1)
    else (significand, 0)

/-- The double-precision number of a significand and a decimal exponent. -/
def floatOf? (negative : Bool) (significand : Nat) (exponent : Int) : Option JsonNumber := do
  let s ← Binary64.ofFraction? significand 1
  let x ← s.ofParts? exponent
  return .float { x with negative }

/-- The exponent part of a number: the sign and the digits. -/
def readExponent? : List Char → Option (Bool × List Char × List Char)
  | e :: rest =>
    if e = 'e' || e = 'E' then
      let (negative, rest) : Bool × List Char := match rest with
        | '+' :: r => (false, r)
        | '-' :: r => (true, r)
        | r => (false, r)
      some (negative, rest.takeWhile Char.isDigit, rest.dropWhile Char.isDigit)
    else none
  | [] => none

/-- The value of a number: its sign, the digits before and behind the point, and its exponent. -/
def numberOf? (negative : Bool) (whole : List Char) (places : Option (List Char))
    (exponent : Option (Bool × List Char)) : Option JsonNumber :=
  let (s, taken) := appendDigits 0 whole
  let dropped := whole.length - taken
  match places, exponent with
  | none, none =>
    if dropped ≠ 0 then floatOf? negative s dropped
    else if !negative then some (.int s)
    else if 1 ≤ s && s ≤ 0x8000000000000000 then some (.int (-s))
    else floatOf? true s 0
  | places, exponent =>
    let (s, behind) := appendDigits s (places.getD [])
    let start : Int := (dropped : Int) - (behind : Int)
    match exponent with
    | none => floatOf? negative s start
    | some (down, digits) =>
      let e := Decimal.value digits
      if 0x80000000 ≤ e then
        if s = 0 || down then floatOf? negative 0 0 else none
      else floatOf? negative s (if down then start - (e : Int) else start + (e : Int))

/-- Reads a number behind its sign; nothing when there is none. -/
def readNumber? (negative : Bool) (cs : List Char) : Option (Option JsonNumber × List Char) :=
  let whole := cs.takeWhile Char.isDigit
  let rest := cs.dropWhile Char.isDigit
  if whole.isEmpty || (whole.head? == some '0' && whole.length ≠ 1) then none
  else
    let (places, rest) : Option (List Char) × List Char := match rest with
      | '.' :: r => (some (r.takeWhile Char.isDigit), r.dropWhile Char.isDigit)
      | r => (none, r)
    if places == some [] then none
    else match readExponent? rest with
      | none => some (numberOf? negative whole places none, rest)
      | some (down, digits, rest) =>
        if digits.isEmpty then none
        else some (numberOf? negative whole places (some (down, digits)), rest)

/-! ### Values -/

mutual

/-- Reads a value and returns the characters behind it, none of them behind a break.  The fuel
bounds the number of steps. -/
def readValue : Nat → List Char → Document × List Char
  | 0, _ => (broken, [])
  | fuel + 1, cs =>
    match skipBlanks cs with
    | 'n' :: 'u' :: 'l' :: 'l' :: rest => (null, rest)
    | 't' :: 'r' :: 'u' :: 'e' :: rest => (bool true, rest)
    | 'f' :: 'a' :: 'l' :: 's' :: 'e' :: rest => (bool false, rest)
    | '"' :: rest =>
      match readText rest with
      | none => (broken, [])
      | some (s, rest) => (text s, rest)
    | '[' :: rest =>
      match skipBlanks rest with
      | ']' :: rest => (array [] true, rest)
      | rest =>
        let (items, closed, rest) := readItems fuel rest
        (array items closed, rest)
    | '\x7b' :: rest =>
      match skipBlanks rest with
      | '\x7d' :: rest => (object [] true, rest)
      | rest =>
        let (members, closed, rest) := readMembers fuel rest
        (object members closed, rest)
    | '-' :: rest =>
      match readNumber? true rest with
      | none => (broken, [])
      | some (n, rest) => (number n, rest)
    | rest =>
      match readNumber? false rest with
      | none => (broken, [])
      | some (n, rest) => (number n, rest)

/-- Reads the items of an array up to and including the closing bracket. -/
def readItems : Nat → List Char → List Document × Bool × List Char
  | 0, _ => ([], false, [])
  | fuel + 1, cs =>
    let (item, rest) := readValue fuel cs
    match skipBlanks rest with
    | ']' :: rest => ([item], true, rest)
    | ',' :: rest =>
      match skipBlanks rest with
      | ']' :: _ => ([item], false, [])
      | rest =>
        let (items, closed, rest) := readItems fuel rest
        (item :: items, closed, rest)
    | _ => ([item], false, [])

/-- Reads the members of an object up to and including the closing brace. -/
def readMembers : Nat → List Char → List (String × Document) × Bool × List Char
  | 0, _ => ([], false, [])
  | fuel + 1, cs =>
    match skipBlanks cs with
    | '"' :: rest =>
      match readText rest with
      | some (some name, rest) =>
        match skipBlanks rest with
        | ':' :: rest =>
          let (value, rest) := readValue fuel rest
          match skipBlanks rest with
          | '\x7d' :: rest => ([(name, value)], true, rest)
          | ',' :: rest =>
            match skipBlanks rest with
            | '\x7d' :: _ => ([(name, value)], false, [])
            | rest =>
              let (members, closed, rest) := readMembers fuel rest
              ((name, value) :: members, closed, rest)
          | _ => ([(name, value)], false, [])
        | _ => ([(name, broken)], false, [])
      | _ => ([], false, [])
    | _ => ([], false, [])

end

/-- The document at the front of a text, and the characters behind it and its blanks. -/
def ofChars (cs : List Char) : Document × List Char :=
  let (d, rest) := readValue (2 * cs.length + 2) cs
  (d, skipBlanks rest)

/-! ### Taking values -/

mutual

/-- Whether a document is whole: no break is in it. -/
def isWhole : Document → Bool
  | array items closed => areWhole items && closed
  | object members closed => membersWhole members && closed
  | broken => false
  | _ => true

/-- Whether all documents of a list are whole. -/
def areWhole : List Document → Bool
  | [] => true
  | d :: rest => isWhole d && areWhole rest

/-- Whether all members of an object are whole. -/
def membersWhole : List (String × Document) → Bool
  | [] => true
  | m :: rest => memberWhole m && membersWhole rest

/-- Whether a member of an object is whole. -/
def memberWhole : String × Document → Bool
  | (_, d) => isWhole d

end

mutual

/-- The value of a document that nests at most `levels` arrays and objects.  The members of an
object are sorted by name, and of several of one name the last is kept. -/
def value? (levels : Nat) : Document → Option Json
  | null => some .null
  | bool b => some (.bool b)
  | number n => n.map .number
  | text s => s.map .text
  | array items closed =>
    if levels = 0 || !closed then none
    else (values? (levels - 1) items).map .array
  | object members closed =>
    if levels = 0 || !closed then none
    else (memberValues? (levels - 1) members).map .ofMembers
  | broken => none

/-- The values of a list of documents. -/
def values? (levels : Nat) : List Document → Option (List Json)
  | [] => some []
  | d :: rest => do
    let j ← value? levels d
    let js ← values? levels rest
    return j :: js

/-- The values of the members of an object. -/
def memberValues? (levels : Nat) : List (String × Document) → Option (List (String × Json))
  | [] => some []
  | m :: rest => do
    let j ← memberValue? levels m
    let js ← memberValues? levels rest
    return j :: js

/-- The value of a member of an object. -/
def memberValue? (levels : Nat) : String × Document → Option (String × Json)
  | (name, d) => (value? levels d).map fun j => (name, j)

end

mutual

/-- The document of a value. -/
def ofJson : Json → Document
  | .null => null
  | .bool b => bool b
  | .number n => number (some n)
  | .text s => text (some s)
  | .array items => array (ofItems items) true
  | .object members => object (ofMembers members) true

/-- The documents of the items of an array. -/
def ofItems : List Json → List Document
  | [] => []
  | j :: rest => ofJson j :: ofItems rest

/-- The documents of the members of an object. -/
def ofMembers : List (String × Json) → List (String × Document)
  | [] => []
  | m :: rest => ofMember m :: ofMembers rest

/-- The document of a member of an object. -/
def ofMember : String × Json → String × Document
  | (name, j) => (name, ofJson j)

end

end Document

/-- The number of arrays and objects that a text may nest. -/
def Json.maxLevels : Nat := 127

/-- The value that a text spells, if it is JSON within the limits. -/
def Json.parse? (text : String) : Option Json :=
  let (d, rest) := Document.ofChars text.toList
  if rest.isEmpty then d.value? Json.maxLevels else none

end Michelson
