/-
# The tree at the front of a byte string

The reader of trees is self-delimiting, since all that it is put together from is.  So a byte
string has at most one tree at its front, found by the reader whatever stands behind it; a tree
cut short is refused for want of bytes; and bytes behind a tree are the only reason for which a
whole byte string is refused as having bytes left.

The main statement is `decodeFront_eq_ok_iff_take`.
-/
import Michelson.Proofs.Binary.SelfDelimiting
import Michelson.Proofs.Expr.Exact

namespace Michelson.Expr

open Decoder

lemma selfDelimiting_decoder (limit : Nat) : SelfDelimiting (decoder limit) :=
  isCompositional_selfDelimiting.decodeWithin limit (limit + 1)

/-! ### The front of a byte string -/

variable {b : Bytes} {e : Expr} {n : Nat}

/-- The tree at the front takes some bytes, whole and without those behind them. -/
lemma decodeFront_eq_ok_iff :
    decodeFront b = .ok (e, n) ↔ ∃ used rest, b = used ++ rest ∧ used.length = n ∧
      Reads (decoder defaultLimit) used e ∧ Starves (decoder defaultLimit) used := by
  constructor
  · intro h
    rw [decodeFront] at h
    split at h
    case h_1 e' rest hread =>
      cases h
      obtain ⟨used, rfl, hused, hstarve⟩ := (selfDelimiting_decoder defaultLimit).taken hread
      exact ⟨used, rest, rfl, by simp, hused, hstarve⟩
    case h_2 => cases h
  · rintro ⟨used, rest, rfl, rfl, hread, -⟩
    simp [decodeFront, hread rest]

lemma decode_eq_ok_iff_reads :
    decode defaultLimit b = .ok e ↔
      Reads (decoder defaultLimit) b e ∧ Starves (decoder defaultLimit) b := by
  rw [decode, runAll_eq_ok_iff]
  constructor
  · intro h
    obtain ⟨used, hb, hread, hstarve⟩ := (selfDelimiting_decoder defaultLimit).taken h
    rw [List.append_nil] at hb
    subst hb
    exact ⟨hread, hstarve⟩
  · rintro ⟨hread, -⟩
    have h := hread []
    rwa [List.append_nil] at h

lemma decodeFront_eq_ok_iff_decode_take :
    decodeFront b = .ok (e, n) ↔ n ≤ b.length ∧ decode defaultLimit (b.take n) = .ok e := by
  rw [decodeFront_eq_ok_iff, decode_eq_ok_iff_reads]
  constructor
  · rintro ⟨used, rest, rfl, rfl, hused⟩
    rw [List.take_left]
    exact ⟨by simp, hused⟩
  · rintro ⟨hle, hused⟩
    exact ⟨b.take n, b.drop n, (List.take_append_drop n b).symm, List.length_take_of_le hle, hused⟩

/-- Bytes are left over when there is a tree at the front and something behind it; a reader that
fails on its way never blames them. -/
lemma decode_eq_trailingBytes_iff {k : Nat} :
    decode defaultLimit b = .error (.trailingBytes k) ↔
      ∃ e n, decodeFront b = .ok (e, n) ∧ n + k = b.length ∧ 0 < k := by
  rw [decode, runAll]
  cases hread : decoder defaultLimit b with
  | error err rest =>
    -- there is no tree at the front, and the reason is another one
    have hne : err ≠ .trailingBytes k := by
      rintro rfl
      exact (selfDelimiting_decoder defaultLimit).ne_trailingBytes hread
    simp [decodeFront, hread, hne]
  | ok e rest =>
    obtain ⟨used, rfl, -⟩ := (selfDelimiting_decoder defaultLimit).taken hread
    have hfront : decodeFront (used ++ rest) = .ok (e, used.length) := by
      simp [decodeFront, hread]
    rw [hfront]
    cases rest with
    | nil =>
      simp only [List.append_nil]
      constructor
      · intro h
        cases h
      · rintro ⟨e', n, h, hlength, hpos⟩
        cases h
        omega
    | cons x rest =>
      simp only [List.length_append, Except.error.injEq, Error.trailingBytes.injEq]
      constructor
      · rintro rfl
        exact ⟨e, used.length, rfl, rfl, Nat.succ_pos rest.length⟩
      · rintro ⟨e', n, h, hlength, -⟩
        cases h
        omega

/-- A prefix of the tree at the front has no tree at its own front. -/
lemma decodeFront_take_of_lt {k : Nat} (h : decodeFront b = .ok (e, n)) (hk : k < n) :
    ∃ err, decodeFront (b.take k) = .error err ∧ err.IsShortage := by
  obtain ⟨used, rest, rfl, rfl, -, hstarve⟩ := decodeFront_eq_ok_iff.1 h
  have htake : (used ++ rest).take k = used.take k := List.take_append_of_le_length hk.le
  have hmissing : used.drop k ≠ [] := by
    rw [Ne, List.drop_eq_nil_iff]
    exact Nat.not_le.2 hk
  obtain ⟨err, left, herror, hshort⟩ := hstarve _ _ (List.take_append_drop k used) hmissing
  exact ⟨err, by rw [htake, decodeFront, herror], hshort⟩

/-- The tree at the front of a byte string is the tree of a prefix, and of one prefix only.  Reading
the whole byte string fails over bytes that are left exactly when they are those behind this prefix.
And a prefix that is shorter than that of the tree has no tree at its front: it is refused because
bytes are missing. -/
theorem decodeFront_eq_ok_iff_take (b : Bytes) :
    (∀ e n, decodeFront b = .ok (e, n) ↔
      n ≤ b.length ∧ decode defaultLimit (b.take n) = .ok e) ∧
    (∀ n n' e e', n ≤ b.length → n' ≤ b.length → decode defaultLimit (b.take n) = .ok e →
      decode defaultLimit (b.take n') = .ok e' → n = n' ∧ e = e') ∧
    (∀ k, decode defaultLimit b = .error (.trailingBytes k) ↔
      ∃ e n, decodeFront b = .ok (e, n) ∧ n + k = b.length ∧ 0 < k) ∧
    (∀ e n, decodeFront b = .ok (e, n) → ∀ k < n, ∃ err, decodeFront (b.take k) = .error err ∧
      (err = .shortBuffer ∨ ∃ declared left, err = .invalidLength (.declared declared left))) := by
  refine ⟨fun e n => decodeFront_eq_ok_iff_decode_take, ?_,
    fun k => decode_eq_trailingBytes_iff, ?_⟩
  · intro n n' e e' hn hn' h h'
    have hfront := decodeFront_eq_ok_iff_decode_take.2 ⟨hn, h⟩
    rw [decodeFront_eq_ok_iff_decode_take.2 ⟨hn', h'⟩] at hfront
    cases hfront
    exact ⟨rfl, rfl⟩
  · intro e n h k hk
    obtain ⟨err, herror, hshort⟩ := decodeFront_take_of_lt h hk
    refine ⟨err, herror, ?_⟩
    match err, hshort with
    | .shortBuffer, _ => exact Or.inl rfl
    | .invalidLength (.declared declared left), _ => exact Or.inr ⟨declared, left, rfl⟩

/-- A sequence of one number with a byte behind it: whole, with this byte, and cut short within its
length and within its payload. -/
theorem decodeFront_eq_ok_iff_take_list :
    let b : Bytes := [2, 0, 0, 0, 2, 0, 1, 255]
    decodeFront b = .ok (list [int 1], 7) ∧ decode defaultLimit b = .error (.trailingBytes 1) ∧
      (∀ n e, n ≤ 8 → decode defaultLimit (b.take n) = .ok e → n = 7) ∧
      ∀ k < 7, ∃ err, decodeFront (b.take k) = .error err ∧
        (err = .shortBuffer ∨ ∃ declared left, err = .invalidLength (.declared declared left)) := by
  intro b
  obtain ⟨htake, hone, hleft, hshort⟩ := decodeFront_eq_ok_iff_take b
  have hread : decode defaultLimit (b.take 7) = .ok (list [int 1]) := by rfl
  have hfront := (htake _ 7).2 ⟨by decide, hread⟩
  refine ⟨hfront, (hleft 1).2 ⟨_, 7, hfront, by decide, by decide⟩, fun n e hn h => ?_,
    hshort _ 7 hfront⟩
  exact (hone n 7 e _ hn (by decide) h hread).1

end Michelson.Expr
