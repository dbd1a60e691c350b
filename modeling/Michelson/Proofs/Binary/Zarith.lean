/-
# The one form of a whole number

Reading a number and writing it undo each other.  The groups behind the first byte spell a positive
number in base 128, and the first byte holds the sign and the six low bits, so every number is
`signed negative (low + 64 * high)` for one choice of these three parts, and this choice decides
its bytes (`encode_signed`).  Both directions are read off from that.
-/
import Michelson.Binary.Zarith
import Michelson.Proofs.Binary.Reading

namespace Michelson.Zarith

open Decoder

lemma toNat_digit {n : Nat} (h : n < 256) : (UInt8.ofNat n).toNat = n :=
  UInt8.toNat_ofNat_of_lt' h

/-! ### The groups behind the first byte -/

lemma groups_cons_last {x : UInt8} (rest : Bytes) (hx : x.toNat < 128) (h0 : x.toNat ≠ 0) :
    groups (x :: rest) = .ok x.toNat rest := by
  have hlt : x < 128 := UInt8.lt_iff_toNat_lt.2 hx
  have hne : x ≠ 0 := fun h => h0 (by rw [h]; rfl)
  simp only [groups, if_pos hlt, if_neg hne]

lemma groups_cons_more {x : UInt8} {b rest : Bytes} {n : Nat} (hx : 128 ≤ x.toNat)
    (h : groups b = .ok n rest) : groups (x :: b) = .ok (x.toNat - 128 + 128 * n) rest := by
  have hlt : ¬ x < 128 := fun h' => Nat.not_lt.2 hx (UInt8.lt_iff_toNat_lt.1 h')
  simp only [groups, if_neg hlt, h]

lemma groups_cons_eq_ok {x : UInt8} {b rest : Bytes} {n : Nat} (h : groups (x :: b) = .ok n rest) :
    (x.toNat < 128 ∧ x.toNat ≠ 0 ∧ n = x.toNat ∧ rest = b) ∨
      (128 ≤ x.toNat ∧ ∃ m, groups b = .ok m rest ∧ n = x.toNat - 128 + 128 * m) := by
  by_cases hlt : x < 128
  · left
    have hx : x.toNat < 128 := UInt8.lt_iff_toNat_lt.1 hlt
    by_cases h0 : x = 0
    · simp [groups, h0] at h
    · simp only [groups, if_pos hlt, if_neg h0, EStateM.Result.ok.injEq] at h
      exact ⟨hx, fun h' => h0 (UInt8.toNat.inj h'), h.1.symm, h.2.symm⟩
  · right
    have hx : 128 ≤ x.toNat := Nat.not_lt.1 fun h' => hlt (UInt8.lt_iff_toNat_lt.2 h')
    cases hb : groups b with
    | error e left => simp [groups, hlt, hb] at h
    | ok m left =>
      simp only [groups, if_neg hlt, hb, EStateM.Result.ok.injEq] at h
      obtain ⟨rfl, rfl⟩ := h
      exact ⟨hx, m, rfl, rfl⟩

/-- The groups of a positive number are read back. -/
lemma reads_groups {n : Nat} (hn : 0 < n) : Reads groups (encodeGroups n) n := by
  intro rest
  induction n using Nat.strongRecOn with
  | ind n ih =>
    by_cases hlast : n < 128
    · have hbyte : (UInt8.ofNat n).toNat = n := toNat_digit (by omega)
      rw [encodeGroups, if_pos hlast, List.singleton_append,
        groups_cons_last rest (by omega) (by omega), hbyte]
    · have hbyte : (UInt8.ofNat (128 + n % 128)).toNat = 128 + n % 128 := toNat_digit (by omega)
      have htail := ih (n / 128) (by omega) (by omega)
      rw [encodeGroups, if_neg hlast, List.cons_append, groups_cons_more (by omega) htail, hbyte]
      congr 1
      omega

/-- Groups that can be read are those of a positive number. -/
lemma groups_exact : Exact groups encodeGroups (0 < ·) := by
  intro b
  induction b with
  | nil => intro n rest h; simp [groups] at h
  | cons x b ih =>
    intro n rest h
    have hbound := x.toNat_lt
    rcases groups_cons_eq_ok h with ⟨hx, h0, rfl, rfl⟩ | ⟨hx, m, hm, rfl⟩
    · rw [encodeGroups, if_pos hx, UInt8.ofNat_toNat]
      exact ⟨rfl, by omega⟩
    · obtain ⟨hb, hpos⟩ := ih m rest hm
      have hdiv : (x.toNat - 128 + 128 * m) / 128 = m := by omega
      have hmod : 128 + (x.toNat - 128 + 128 * m) % 128 = x.toNat := by omega
      have hpos : 0 < m := hpos
      have hform : encodeGroups (x.toNat - 128 + 128 * m) = x :: encodeGroups m := by
        rw [encodeGroups, if_neg (by omega), hdiv, hmod, UInt8.ofNat_toNat]
      exact ⟨by rw [hform, hb, List.cons_append], show 0 < _ by omega⟩

/-! ### Numbers by sign, low bits and high bits -/

lemma signed_lt_zero_iff {negative : Bool} {n : Nat} (h : negative = true → n ≠ 0) :
    signed negative n < 0 ↔ negative = true := by
  cases negative with
  | true => simp only [signed, if_true, iff_true]; have := h rfl; omega
  | false => simp only [signed, Bool.false_eq_true, if_false, iff_false]; omega

lemma natAbs_signed (negative : Bool) (n : Nat) : (signed negative n).natAbs = n := by
  cases negative <;> simp [signed]

lemma signed_natAbs (i : Int) : signed (decide (i < 0)) i.natAbs = i := by
  by_cases h : i < 0
  · simp only [signed, h, decide_true, if_true]; omega
  · simp only [signed, h, decide_false, Bool.false_eq_true, if_false]; omega

/-- The bytes of a number from its parts. -/
lemma encode_signed {negative : Bool} {low high : Nat} (hlow : low < 64)
    (h : negative = true → low + 64 * high ≠ 0) :
    encode (signed negative (low + 64 * high)) =
      if high = 0 then [UInt8.ofNat ((if negative then 64 else 0) + low)]
      else UInt8.ofNat (128 + (if negative then 64 else 0) + low) :: encodeGroups high := by
  have hmod : (low + 64 * high) % 64 = low := by omega
  have hdiv : (low + 64 * high) / 64 = high := by omega
  simp only [encode, signed_lt_zero_iff h, natAbs_signed, hmod, hdiv]

/-- Every number has such parts. -/
lemma exists_signed (i : Int) : ∃ negative low high, low < 64 ∧
    (negative = true → low + 64 * high ≠ 0) ∧ i = signed negative (low + 64 * high) := by
  refine ⟨decide (i < 0), i.natAbs % 64, i.natAbs / 64, by omega, ?_, ?_⟩
  · intro h
    have hneg : i < 0 := of_decide_eq_true h
    omega
  · rw [Nat.mod_add_div, signed_natAbs]

/-! ### Reading and writing -/

/-- Every byte is a first byte for one choice of its parts. -/
lemma exists_parts (x : UInt8) : ∃ (more negative : Bool) (low : Nat), low < 64 ∧
    x.toNat = (if more then 128 else 0) + (if negative then 64 else 0) + low := by
  have hbound := x.toNat_lt
  refine ⟨decide (128 ≤ x.toNat), decide (x.toNat / 64 % 2 = 1), x.toNat % 64, by omega, ?_⟩
  simp only [decide_eq_true_eq]
  split <;> split <;> omega

/-- Reading by the parts of the first byte. -/
lemma decode_cons {x : UInt8} {more negative : Bool} {low : Nat} (b : Bytes)
    (hx : x.toNat = (if more then 128 else 0) + (if negative then 64 else 0) + low)
    (hlow : low < 64) :
    decode (x :: b) =
      if more then
        match groups b with
        | .ok high rest => .ok (signed negative (low + 64 * high)) rest
        | .error e rest => .error e rest
      else if negative ∧ low = 0 then .error (.invalidInteger .negativeZero) b
      else .ok (signed negative low) b := by
  have hbyte : byte (x :: b) = .ok x b := rfl
  have hlt : x < 128 ↔ more = false := by
    rw [UInt8.lt_iff_toNat_lt]
    cases more <;> cases negative <;> simp at hx ⊢ <;> omega
  have hmod : x.toNat % 64 = low := by cases more <;> cases negative <;> simp at hx <;> omega
  have hsign : x.toNat / 64 % 2 = 1 ↔ negative = true := by
    cases more <;> cases negative <;> simp at hx ⊢ <;> omega
  rw [decode, bind_apply_of_ok hbyte]
  simp only [hlt, hmod, hsign, Bool.decide_eq_true]
  cases more with
  | true =>
    cases hg : groups b with
    | ok high rest => exact bind_apply_of_ok hg
    | error e rest => exact bind_apply_of_error hg
  | false =>
    simp only [if_true, Bool.false_eq_true, if_false]
    split <;> rfl

/-- A number is read back from its bytes. -/
lemma reads_decode (i : Int) : Reads decode (encode i) i := by
  intro rest
  obtain ⟨negative, low, high, hlow, hzero, rfl⟩ := exists_signed i
  have hsign : (if negative then 64 else 0) ≤ 64 := by split <;> omega
  rw [encode_signed hlow hzero]
  by_cases hhigh : high = 0
  · subst hhigh
    have hx : (UInt8.ofNat ((if negative then 64 else 0) + low)).toNat =
        (if false then 128 else 0) + (if negative then 64 else 0) + low := by
      rw [toNat_digit (by omega)]
      simp
    rw [if_pos rfl, List.singleton_append, decode_cons rest hx hlow, if_neg Bool.false_ne_true,
      if_neg fun h => hzero h.1 h.2]
    rfl
  · have hx : (UInt8.ofNat (128 + (if negative then 64 else 0) + low)).toNat =
        (if true then 128 else 0) + (if negative then 64 else 0) + low := by
      rw [toNat_digit (by omega)]
      simp
    rw [if_neg hhigh, List.cons_append, decode_cons _ hx hlow, if_pos rfl,
      reads_groups (by omega) rest]

/-- Bytes that can be read as a number are its bytes. -/
lemma decode_exact : Exact decode encode fun _ => True := by
  intro b i rest h
  refine ⟨?_, trivial⟩
  cases b with
  | nil => cases h
  | cons x b =>
    obtain ⟨more, negative, low, hlow, hx⟩ := exists_parts x
    rw [decode_cons b hx hlow] at h
    cases more with
    | false =>
      rw [if_neg Bool.false_ne_true] at h
      split at h
      case isTrue => cases h
      case isFalse hzero =>
        cases h
        have hform := @encode_signed negative low 0 hlow fun hneg h0 => hzero ⟨hneg, h0⟩
        rw [Nat.mul_zero, Nat.add_zero, if_pos rfl] at hform
        simp only [Bool.false_eq_true, if_false, Nat.zero_add] at hx
        rw [hform, ← hx, UInt8.ofNat_toNat, List.singleton_append]
    | true =>
      rw [if_pos rfl] at h
      split at h
      case h_2 => cases h
      case h_1 high left hgroups =>
        cases h
        obtain ⟨rfl, hpos⟩ := groups_exact _ _ _ hgroups
        have hpos : 0 < high := hpos
        simp only [if_true] at hx
        rw [encode_signed hlow fun _ => by omega, if_neg (by omega), ← hx, UInt8.ofNat_toNat,
          List.cons_append]

end Michelson.Zarith
