/-
# Comparing trees

Two trees are the same when they apply the same primitives to the same parts; `same` looks at
annotations, `sameShape` does not.  Neither looks at the choice of encoding or at the mark of
unpacked trees.
-/
import Michelson.Expr

namespace Michelson.Expr

mutual

/-- Compares two trees, with their annotations if `annotated` is set. -/
def compare (annotated : Bool) : Expr → Expr → Bool
  | literal a _, literal b _ => a == b
  | seq as _, seq bs _ => compareAll annotated as bs
  | app p as annots _ _, app q bs annots' _ _ =>
    p == q && (!annotated || annots == annots') && compareAll annotated as bs
  | _, _ => false

/-- Compares two lists of trees of the same length. -/
def compareAll (annotated : Bool) : List Expr → List Expr → Bool
  | [], [] => true
  | a :: as, b :: bs => compare annotated a b && compareAll annotated as bs
  | _, _ => false

end

/-- Whether two trees are the same, annotations included. -/
def same (a b : Expr) : Bool := compare true a b

/-- Whether two trees are the same apart from annotations. -/
def sameShape (a b : Expr) : Bool := compare false a b

end Michelson.Expr
