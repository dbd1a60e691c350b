/-
# What the reader of trees is put together from

All that is ever done to the bytes is to take off one of them, to cut off a number of them, to read
the groups of a number, and to read items until a window is empty.  The reader of trees is put
together from these by running one decoder after the other.  So a property of decoders that these
parts have, and that running one after the other keeps, is a property of the reader of trees within
any limit: it need not be followed through the tags once more (`IsCompositional.decodeWithin`).
-/
import Mathlib.Tactic.Lemma
import Michelson.Expr.Binary

namespace Michelson

/-- The error says that there are fewer bytes than are needed. -/
def Error.IsShortage : Error → Prop
  | .shortBuffer => True
  | .invalidLength (.declared _ _) => True
  | _ => False

lemma Error.IsShortage.ne_trailingBytes {e : Error} (h : e.IsShortage) (k : Nat) :
    e ≠ .trailingBytes k := by
  rintro rfl
  exact h

namespace Decoder

/-- The parts of the reader of trees have a property, and running one decoder after the other keeps
it.  None of the parts complains about bytes that are left. -/
structure IsCompositional (P : ∀ α : Type, Decoder α → Prop) : Prop where
  pure {α : Type} (a : α) : P α (Pure.pure a)
  throw {α : Type} {e : Error} (he : ∀ k, e ≠ .trailingBytes k) : P α (MonadExcept.throw e)
  bind {α β : Type} {d : Decoder α} {f : α → Decoder β} (hd : P α d) (hf : ∀ a, P β (f a)) :
    P β (d >>= f)
  byte : P UInt8 byte
  /-- Cutting off a number of bytes that is known, where too few of them are a shortage. -/
  cut (n : Nat) {err : Bytes → Error} (herr : ∀ b, (err b).IsShortage) :
    P Bytes fun b => match Bytes.cut? n b with
      | some (head, rest) => .ok head rest
      | none => .error (err b) b
  groups : P Nat Zarith.groups
  fill {α : Type} {part : Decoder α} (hpart : P α part) (window : Bytes) :
    P (List α) (lift (fill part window))

namespace IsCompositional

variable {P : ∀ α : Type, Decoder α → Prop} {α β : Type} {d d' : Decoder α} {part : Decoder Expr}

lemma of_ite {c : Prop} [Decidable c] (hd : P α d) (hd' : P α d') :
    P α (if c then d else d') := by
  split
  · exact hd
  · exact hd'

variable (hP : IsCompositional P)

include hP

lemma map (hd : P α d) (f : α → β) : P β (do return f (← d)) :=
  hP.bind hd fun a => hP.pure (f a)

lemma take (n : Nat) : P Bytes (take n) :=
  hP.cut n fun _ => trivial

lemma word : P Nat word :=
  hP.map (hP.take 4) Bytes.toNat

lemma block : P Bytes block :=
  hP.bind hP.word fun n => hP.cut n fun _ => trivial

lemma decodeMany (hd : P α d) (count : Nat) : P (List α) (Expr.decodeMany d count) := by
  induction count with
  | zero => exact hP.pure []
  | succ count ih => exact hP.bind hd fun a => hP.map ih (a :: ·)

/-! ### Numbers and annotations -/

lemma number : P Int Zarith.decode := by
  refine hP.bind hP.byte fun first => of_ite (of_ite (hP.throw fun _ => ?_) (hP.pure _)) ?_
  · exact Error.noConfusion
  · exact hP.map hP.groups _

lemma annotations : P (List String) decodeAnnots := by
  refine hP.bind hP.block fun raw => of_ite (hP.pure []) ?_
  split
  · exact hP.throw fun _ => Error.noConfusion
  · exact of_ite (hP.throw fun _ => Error.noConfusion) (hP.pure _)

/-! ### Trees -/

lemma decodePrimitive : P Primitive Expr.decodePrimitive := by
  refine hP.bind hP.byte fun code => ?_
  split
  · exact hP.pure _
  · exact hP.throw fun _ => Error.noConfusion

lemma decodeNarrow (hpart : P Expr part) (arity : Nat) (annotated : Bool) :
    P Expr (Expr.decodeNarrow part arity annotated) := by
  refine hP.bind hP.decodePrimitive fun p => hP.bind (hP.decodeMany hpart arity) fun args => ?_
  cases annotated with
  | false => exact hP.map (hP.pure []) _
  | true =>
    refine hP.bind hP.annotations fun annots => of_ite (hP.throw fun _ => ?_) (hP.pure _)
    exact Error.noConfusion

lemma decodeWide (hpart : P Expr part) : P Expr (Expr.decodeWide part) := by
  refine hP.bind hP.decodePrimitive fun p => hP.bind hP.block fun window => ?_
  exact hP.bind (hP.fill hpart window) fun args => hP.map hP.annotations _

lemma decodeNode (hpart : P Expr part) (tag : UInt8) : P Expr (Expr.decodeNode part tag) := by
  unfold Expr.decodeNode
  split
  case h_1 => exact hP.map hP.number Expr.int
  case h_2 =>
    refine hP.bind hP.block fun raw => ?_
    split
    · exact hP.pure _
    · exact hP.throw fun _ => Error.noConfusion
  case h_3 => exact hP.bind hP.block fun window => hP.map (hP.fill hpart window) Expr.list
  case h_10 => exact hP.decodeWide hpart
  case h_11 => exact hP.map hP.block Expr.bytes
  case h_12 => exact hP.throw fun _ => Error.noConfusion
  -- the other tags are those of the narrow forms
  all_goals exact hP.decodeNarrow hpart _ _

/-- The reader of trees has every property that its parts have and that running one decoder after
the other keeps. -/
theorem decodeWithin (limit levels : Nat) : P Expr (Expr.decodeWithin limit levels) := by
  induction levels with
  | zero => exact hP.throw fun _ => Error.noConfusion
  | succ levels ih => exact hP.bind hP.byte fun tag => hP.decodeNode ih tag

end IsCompositional

end Decoder

end Michelson
