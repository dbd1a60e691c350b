/-
# Fresh names

Names are given out one after the other and none is given out twice.  A name that is taken gets
the smallest number behind it that makes it new.
-/

namespace Michelson.Names

/-- A base name with a number behind it. -/
def numbered (base : String) (n : Nat) : String := base ++ "_" ++ toString n

/-- The smallest number, up to the number of names in use, that makes a new name of a base. -/
def freeNumber (used : List String) (base : String) : Nat :=
  ((List.range (used.length + 1)).find? fun n => !used.contains (numbered base n)).getD used.length

/-- A base name with the smallest number that makes it new. -/
def freshNumbered (used : List String) (base : String) : String :=
  numbered base (freeNumber used base)

/-- The wanted name if it is new, else that name with a number. -/
def fresh (used : List String) (wanted : String) : String :=
  if used.contains wanted then freshNumbered used wanted else wanted

/-- The wanted name if there is one that is not empty and new; else a name with a number, made of
the wanted name or of the default. -/
def freshOr (used : List String) (wanted : Option String) (default : String) : String :=
  match wanted.filter (· ≠ "") with
  | some name => fresh used name
  | none => freshNumbered used default

/-- Gives out a name for each of some wishes in turn.  `name` is the name for a wish when some
names are in use. -/
def assign {α : Type} (name : List String → α → String) : (used : List String) → List α →
    List String
  | _, [] => []
  | used, wish :: rest =>
    let given := name used wish
    given :: assign name (given :: used) rest

end Michelson.Names
