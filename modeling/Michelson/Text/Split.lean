/-
# Splitting text

Cutting a text at every occurrence of a separator, and putting the pieces together again.  A text
with `n` separators has `n + 1` pieces, some of them perhaps empty.
-/

namespace Michelson.Text

/-- The pieces between the occurrences of `sep` in a list of characters. -/
def splitChars (sep : Char) : List Char → List (List Char)
  | [] => [[]]
  | c :: rest =>
    if c = sep then [] :: splitChars sep rest
    else match splitChars sep rest with
      | [] => [[c]]
      | piece :: pieces => (c :: piece) :: pieces

/-- The pieces between the occurrences of `sep` in a text. -/
def split (sep : Char) (s : String) : List String :=
  (splitChars sep s.toList).map String.ofList

/-- The piece before the first occurrence of `sep`, or the whole text. -/
def beforeFirst (sep : Char) (s : String) : String :=
  String.ofList (s.toList.takeWhile (· ≠ sep))

/-- Pieces of text with `sep` between them, as characters. -/
def joinChars (sep : Char) : List (List Char) → List Char
  | [] => []
  | [piece] => piece
  | piece :: pieces => piece ++ sep :: joinChars sep pieces

/-- Pieces of text with `sep` between them. -/
def join (sep : Char) (pieces : List String) : String :=
  String.ofList (joinChars sep (pieces.map String.toList))

end Michelson.Text
