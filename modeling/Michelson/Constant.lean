/-
# Global constants

A reference `constant "hash"` stands for an expression that is kept elsewhere.  Expansion puts the
expressions of a dictionary in the place of their references, in the expressions that come to
light as well, as long as references nest no deeper than a fixed number.  A failed expansion stops
where it fails and leaves what it has replaced so far.
-/
import Michelson.ContractFault
import Michelson.NameMap

namespace Michelson

/-- The known global constants by their hashes. -/
abbrev Dictionary := NameMap Expr

namespace Dictionary

/-- The expression that a tree refers to. -/
def lookup? (dict : Dictionary) (e : Expr) : Option Expr :=
  e.reference?.bind fun hash => NameMap.find? hash dict

end Dictionary

namespace Expr

mutual

/-- Replaces the references that `lookup` knows from the root down, each by what `expand` makes of
its expression, up to the first fault. -/
def substitute (lookup : Expr → Option Expr) (expand : Expr → Expr × Option ShapeFault) :
    Expr → Expr × Option ShapeFault
  | literal l u => (literal l u, none)
  | seq items u =>
    let (items, fault) := substituteAll lookup expand items
    (seq items u, fault)
  | app p args annots w u =>
    match lookup (app p args annots w u) with
    | some expression => expand expression
    | none =>
      let (args, fault) := substituteAll lookup expand args
      (app p args annots w u, fault)

/-- Replaces the references in a list of trees up to the first fault. -/
def substituteAll (lookup : Expr → Option Expr) (expand : Expr → Expr × Option ShapeFault) :
    List Expr → List Expr × Option ShapeFault
  | [] => ([], none)
  | e :: rest =>
    match substitute lookup expand e with
    | (e, some fault) => (e :: rest, some fault)
    | (e, none) =>
      let (rest, fault) := substituteAll lookup expand rest
      (e :: rest, fault)

end

/-- Expands a tree as long as references nest less than `levels` deep. -/
def expandWithin (dict : Dictionary) : (levels : Nat) → Expr → Expr × Option ShapeFault
  | 0, e => (e, some .expansionTooDeep)
  | levels + 1, e => substitute dict.lookup? (expandWithin dict levels) e

/-- How deep references may nest. -/
def maxExpansion : Nat := 64

/-- Expands the references of a tree; returns the tree as it is left and the fault that stopped
the expansion, if any. -/
def expand (dict : Dictionary) (e : Expr) : Expr × Option ShapeFault :=
  expandWithin dict (maxExpansion + 1) e

end Expr

end Michelson
