/-
# Maps keyed by names

A finite map from names to values as a list of pairs.  Insertion keeps the pairs in the order of
the names, with one value per name.
-/

namespace Michelson

/-- A list of named values. -/
abbrev NameMap (α : Type) := List (String × α)

namespace NameMap

variable {α : Type}

/-- Adds a value under a name, replacing the value that has this name. -/
def insert (name : String) (value : α) : NameMap α → NameMap α
  | [] => [(name, value)]
  | (other, old) :: rest =>
    if name = other then (name, value) :: rest
    else if name < other then (name, value) :: (other, old) :: rest
    else (other, old) :: insert name value rest

/-- The pairs in the order of their names; of several values of one name the last is kept. -/
def ofList (pairs : List (String × α)) : NameMap α :=
  pairs.foldl (fun sorted p => insert p.1 p.2 sorted) []

/-- The value under a name. -/
def find? (name : String) (m : NameMap α) : Option α :=
  m.lookup name

end NameMap

end Michelson
