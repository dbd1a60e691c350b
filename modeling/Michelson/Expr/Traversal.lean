/-
# Traversals

Walks over a tree from the root down, children from left to right.  `visited` lists the nodes that
a walk meets when it does not enter the children of some nodes; `edit` replaces nodes on the
way down and goes on in the replacement.
-/
import Michelson.Expr

namespace Michelson.Expr

mutual

/-- The nodes from the root down, left to right, without the nodes below one that is skipped. -/
def visited (skip : Expr → Bool) : Expr → List Expr
  | literal l u => [literal l u]
  | seq items u =>
    seq items u :: if skip (seq items u) then [] else visitedAll skip items
  | app p args annots w u =>
    app p args annots w u :: if skip (app p args annots w u) then [] else visitedAll skip args

/-- The visited nodes of a list of trees. -/
def visitedAll (skip : Expr → Bool) : List Expr → List Expr
  | [] => []
  | e :: rest => visited skip e ++ visitedAll skip rest

end

/-- All nodes from the root down, left to right. -/
def nodes (e : Expr) : List Expr := e.visited fun _ => false

/-- The hashes of the global constants that a tree refers to, from the root down. -/
def references (e : Expr) : List String := e.nodes.filterMap reference?

mutual

/-- The number of levels below the root. -/
def height : Expr → Nat
  | literal _ _ => 0
  | seq items _ => heightAll items
  | app _ args _ _ _ => heightAll args

/-- One more than the greatest height in a list of trees, zero for no trees. -/
def heightAll : List Expr → Nat
  | [] => 0
  | e :: rest => max (height e + 1) (heightAll rest)

end

mutual

/-- The tree without annotations. -/
def withoutAnnots : Expr → Expr
  | literal l u => literal l u
  | seq items u => seq (withoutAnnotsAll items) u
  | app p args _ w u => app p (withoutAnnotsAll args) [] w u

/-- Trees without annotations. -/
def withoutAnnotsAll : List Expr → List Expr
  | [] => []
  | e :: rest => withoutAnnots e :: withoutAnnotsAll rest

end

/-! ### Editing -/

/-- What an editing walk does at a node. -/
inductive Step where
  /-- Keep the node and enter its children. -/
  | keep
  /-- Put another tree in its place, and enter the children of that tree if `enter` is set. -/
  | replace (tree : Expr) (enter : Bool)

mutual

/-- One editing walk.  `step` looks at a node and a state; `again` treats the children of a
replacement. -/
def editWith {σ : Type} (step : σ → Expr → Step × σ) (again : σ → List Expr → List Expr × σ) :
    σ → Expr → Expr × σ
  | s, literal l u =>
    match step s (literal l u) with
    | (.keep, s) => (literal l u, s)
    | (.replace e enter, s) =>
      if enter then let (parts, s) := again s e.args; (e.withArgs parts, s) else (e, s)
  | s, seq items u =>
    match step s (seq items u) with
    | (.keep, s) => let (items, s) := editAll step again s items; (seq items u, s)
    | (.replace e enter, s) =>
      if enter then let (parts, s) := again s e.args; (e.withArgs parts, s) else (e, s)
  | s, app p args annots w u =>
    match step s (app p args annots w u) with
    | (.keep, s) => let (args, s) := editAll step again s args; (app p args annots w u, s)
    | (.replace e enter, s) =>
      if enter then let (parts, s) := again s e.args; (e.withArgs parts, s) else (e, s)

/-- An editing walk over a list of trees. -/
def editAll {σ : Type} (step : σ → Expr → Step × σ) (again : σ → List Expr → List Expr × σ) :
    σ → List Expr → List Expr × σ
  | s, [] => ([], s)
  | s, e :: rest =>
    let (e, s) := editWith step again s e
    let (rest, s) := editAll step again s rest
    (e :: rest, s)

end

/-- An editing walk over a list of trees that enters at most `limit` replacements within one
another. -/
def editList {σ : Type} (step : σ → Expr → Step × σ) : (limit : Nat) → σ → List Expr →
    List Expr × σ
  | 0 => editAll step fun s es => (es, s)
  | limit + 1 => editAll step (editList step limit)

/-- Edits a tree from the root down, with at most `limit` replacements within one another. -/
def edit {σ : Type} (step : σ → Expr → Step × σ) (limit : Nat) (s : σ) (e : Expr) : Expr × σ :=
  editWith step (editList step limit) s e

end Michelson.Expr
