/-
# Readers that go forward

A decoder takes bytes off the front and leaves the others as they are, so what it leaves are the
last of the bytes it was given (`Advances`).  This is so of the parts of the reader of trees also
when they fail, and of running one after the other; hence of the whole reader, wherever in a tree
it fails (`isCompositional_advances`).  Readers of a known number of bytes take nothing off when
they fail.
-/
import Michelson.Proofs.Binary.Assembly
import Michelson.Proofs.Binary.Reading

namespace Michelson.Decoder

variable {α β : Type}

/-- Whether the decoder fails or not, the bytes it leaves are the last of those it was given. -/
structure Advances (d : Decoder α) : Prop where
  of_ok {b rest : Bytes} {a : α} (h : d b = .ok a rest) : rest <:+ b
  of_error {b rest : Bytes} {e : Error} (h : d b = .error e rest) : rest <:+ b

namespace Advances

lemma pure (a : α) : Advances (Pure.pure a : Decoder α) where
  of_ok h := by
    cases h
    exact List.suffix_refl _
  of_error h := nomatch h

lemma throw (e : Error) : Advances (MonadExcept.throw e : Decoder α) where
  of_ok h := nomatch h
  of_error h := by
    cases h
    exact List.suffix_refl _

lemma bind {d : Decoder α} {f : α → Decoder β} (hd : Advances d) (hf : ∀ a, Advances (f a)) :
    Advances (d >>= f) where
  of_ok h := by
    obtain ⟨a, mid, hmid, hrest⟩ := bind_eq_ok_iff.1 h
    exact ((hf a).of_ok hrest).trans (hd.of_ok hmid)
  of_error {b rest e} h := by
    cases hb : d b with
    | ok a mid =>
      rw [bind_apply_of_ok hb] at h
      exact ((hf a).of_error h).trans (hd.of_ok hb)
    | error e' mid =>
      rw [bind_apply_of_error hb] at h
      cases h
      exact hd.of_error hb

lemma lift (x : Except Error α) : Advances (Decoder.lift x) where
  of_ok h := by
    cases x <;> cases h
    exact List.suffix_refl _
  of_error h := by
    cases x <;> cases h
    exact List.suffix_refl _

lemma byte : Advances byte where
  of_ok h := by
    rw [byte_eq_ok_iff.1 h]
    exact List.suffix_cons _ _
  of_error {b rest e} h := by
    cases b <;> cases h
    exact List.suffix_refl []

lemma cut (n : Nat) (err : Bytes → Error) :
    Advances fun b => match Bytes.cut? n b with
      | some (head, rest) => .ok head rest
      | none => .error (err b) b where
  of_ok {b rest head} h := by
    cases hb : Bytes.cut? n b with
    | none => simp [hb] at h
    | some p =>
      simp only [hb, EStateM.Result.ok.injEq] at h
      obtain ⟨rfl, rfl⟩ := h
      rw [(Bytes.cut?_eq_some_iff.1 hb).1]
      exact List.suffix_append _ _
  of_error {b rest e} h := by
    cases hb : Bytes.cut? n b with
    | none =>
      simp only [hb, EStateM.Result.error.injEq] at h
      obtain ⟨-, rfl⟩ := h
      exact List.suffix_refl b
    | some p => simp [hb] at h

lemma groups : Advances Zarith.groups where
  of_ok {b rest n} h := by
    induction b generalizing n with
    | nil => cases h
    | cons x b ih =>
      rw [Zarith.groups] at h
      split at h
      · split at h <;> cases h
        exact List.suffix_cons x _
      · split at h <;> cases h
        exact (ih ‹_›).trans (List.suffix_cons x b)
  of_error {b rest e} h := by
    induction b with
    | nil =>
      cases h
      exact List.suffix_refl []
    | cons x b ih =>
      rw [Zarith.groups] at h
      split at h
      · split at h <;> cases h
        exact List.suffix_cons x _
      · split at h <;> cases h
        exact (ih ‹_›).trans (List.suffix_cons x b)

end Advances

/-- No part of the reader of trees goes back or beyond the end, also when it fails. -/
lemma isCompositional_advances : IsCompositional fun _ d => Advances d where
  pure := Advances.pure
  throw _ := Advances.throw _
  bind := Advances.bind
  byte := Advances.byte
  cut n err _ := Advances.cut n err
  groups := Advances.groups
  fill _ _ := Advances.lift _

/-! ### Failing on the spot -/

lemma eq_error_of_map {d : Decoder α} {f : α → β} {b rest : Bytes} {e : Error}
    (h : (do return f (← d) : Decoder β) b = .error e rest) : d b = .error e rest := by
  cases hb : d b with
  | ok a mid =>
    rw [bind_apply_of_ok hb] at h
    cases h
  | error e' mid =>
    rw [bind_apply_of_error hb] at h
    cases h
    rfl

lemma eq_of_take_eq_error {n : Nat} {b rest : Bytes} {e : Error} (h : take n b = .error e rest) :
    rest = b := by
  rw [take] at h
  split at h <;> cases h
  rfl

lemma eq_of_byte_eq_error {b rest : Bytes} {e : Error} (h : byte b = .error e rest) :
    rest = b := by
  cases b <;> cases h
  rfl

end Michelson.Decoder
