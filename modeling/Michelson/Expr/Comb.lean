/-
# Combs of pairs

A pair of more than two parts is written flat (`Pair a b c`) or as a comb that nests to the right
(`Pair a (Pair b c)`).  `pairLeaves` splices all nested pairs, `combParts` follows the right spine
only, and `nestPairs` turns every flat pair into a comb.
-/
import Michelson.Expr

namespace Michelson.Expr

/-- The comb of some parts: the primitive nested to the right. -/
def comb (p : Primitive) : List Expr → Expr
  | [] => apply0 p
  | [e] => e
  | e :: rest => apply2 p e (comb p rest)

mutual

/-- The parts of a pair with all nested pairs spliced in; the tree itself when it is no pair. -/
def pairLeaves : Expr → List Expr
  | literal l u => [literal l u]
  | seq items u => [seq items u]
  | app p args annots w u =>
    if p.isPair then pairLeavesAll args else [app p args annots w u]

/-- The spliced parts of a list of trees. -/
def pairLeavesAll : List Expr → List Expr
  | [] => []
  | e :: rest => pairLeaves e ++ pairLeavesAll rest

end

mutual

/-- The parts along the right spine of a pair.  The spine ends at a last part that is no pair or
has annotations, for an annotated part is a field of its own. -/
def combParts : Expr → List Expr
  | literal l u => [literal l u]
  | seq items u => [seq items u]
  | app p args annots w u =>
    if p.isPair && !args.isEmpty then spine args else [app p args annots w u]

/-- The parts of a spine that starts with these arguments. -/
def spine : List Expr → List Expr
  | [] => []
  | [last] => if last.isPair && last.annots.isEmpty then combParts last else [last]
  | e :: rest => e :: spine rest

end

mutual

/-- The tree with every pair of more than two parts written as a comb.  Only the root of such a
comb keeps annotations. -/
def nestPairs : Expr → Expr
  | literal l u => literal l u
  | seq items u => seq (nestPairsAll items) u
  | app p args annots w u =>
    match nestPairsAll args with
    | e :: e' :: e'' :: rest =>
      if p.isPair then app p [e, comb p (e' :: e'' :: rest)] annots false u
      else app p (e :: e' :: e'' :: rest) annots w u
    | args => app p args annots w u

/-- Trees with every flat pair written as a comb. -/
def nestPairsAll : List Expr → List Expr
  | [] => []
  | e :: rest => nestPairs e :: nestPairsAll rest

end

end Michelson.Expr
