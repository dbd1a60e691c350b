/-
# Decimal text

The decimal text of a whole number is read back as the number.  Its digits are digits of the reader,
so the reader takes a minus sign for a sign and nothing else.
-/
import Mathlib.Tactic
import Michelson.Text.Decimal

namespace Michelson.Decimal

lemma value_toDigits (n : Nat) : value (Nat.toDigits 10 n) = n := by
  have hvalue : ∀ digits, value digits = Nat.ofDigitChars 10 digits 0 := by
    intro digits
    rw [Nat.ofDigitChars_eq_foldl]
    rfl
  rw [hvalue, Nat.ofDigitChars_ten_toDigits]

lemma isDigit_of_mem_toDigits {n : Nat} {c : Char} (h : c ∈ Nat.toDigits 10 n) : c.isDigit :=
  Nat.isDigit_of_mem_toDigits (by decide) (Nat.le_refl 10) h

lemma nat?_toDigits (n : Nat) : nat? (Nat.toDigits 10 n) = some n := by
  have hempty : (Nat.toDigits 10 n).isEmpty = false :=
    List.isEmpty_eq_false_iff.2 Nat.toDigits_ne_nil
  have hdigits : (Nat.toDigits 10 n).all Char.isDigit :=
    List.all_eq_true.2 fun c hc => isDigit_of_mem_toDigits hc
  rw [nat?, hempty, hdigits, value_toDigits]
  rfl

/-- A whole number is read back from its decimal text. -/
lemma int?_toString (i : Int) : int? (toString i) = some i := by
  rw [Int.toString_eq_repr, Int.repr_eq_if]
  split
  case isTrue hpos =>
    rw [int?, Nat.toList_repr]
    split
    case h_1 digits hminus =>
      have hdigit : '-' ∈ Nat.toDigits 10 i.toNat := by simp [hminus]
      exact absurd (isDigit_of_mem_toDigits hdigit) (by decide)
    case h_2 => simp [nat?_toDigits, hpos]
  case isFalse hneg =>
    have htext : ("-" ++ (-i).toNat.repr).toList = '-' :: Nat.toDigits 10 (-i).toNat := by
      rw [String.toList_append, Nat.toList_repr]
      rfl
    have habs : -Int.ofNat (-i).toNat = i := by
      rw [Int.ofNat_eq_natCast, Int.toNat_of_nonneg (by omega), Int.neg_neg]
    simp only [int?, htext, nat?_toDigits, Option.map_some, habs]

lemma toString_injective : Function.Injective fun i : Int => toString i := by
  intro i j h
  have hread := int?_toString i
  rw [show toString i = toString j from h, int?_toString] at hread
  exact (Option.some.inj hread).symm

/-- The reader that takes a sign of either kind reads the number as well: the text of a number has
no plus sign. -/
lemma signed?_toString (i : Int) : signed? (toString i) = some i := by
  have hread := int?_toString i
  unfold signed?
  split
  case h_1 digits hplus =>
    rw [int?, hplus] at hread
    cases hread
  case h_2 => exact hread

lemma unsigned?_toString (n : Nat) : unsigned? (toString n) = some n := by
  have hdigits : (toString n).toList = Nat.toDigits 10 n := Nat.toList_repr
  unfold unsigned?
  rw [hdigits]
  split
  case h_1 digits hplus =>
    have hdigit : '+' ∈ Nat.toDigits 10 n := by simp [hplus]
    exact absurd (isDigit_of_mem_toDigits hdigit) (by decide)
  case h_2 => exact nat?_toDigits n

end Michelson.Decimal
