/-
# The grammar of written numbers

The bytes of a number are told by a grammar (`IsForm`): the top bit of each byte says whether
another byte follows, the last of several bytes is not zero, and zero has no sign.  What they
stand for is a sum (`value`): six bits of the first byte, and seven bits of each further byte,
shifted by the bits in front of them.

The reader accepts the byte strings of this grammar and no others, whatever stands behind them,
and returns what they stand for.  Since it takes back exactly what the writer puts out, the bytes
of a number are the only ones of the grammar that stand for it.  The main statement is
`decode_eq_ok_iff_isForm`.
-/
import Michelson.Proofs.Binary.Zarith

namespace Michelson.Zarith

/-- The top bit of each byte says whether another byte follows. -/
def IsChained (b : Bytes) : Prop :=
  ∀ i (h : i < b.length), b[i].toNat.testBit 7 = true ↔ i + 1 < b.length

/-- The bytes of a number. -/
@[mk_iff]
structure IsForm (b : Bytes) : Prop where
  /-- There is a first byte. -/
  ne_nil : b ≠ []
  isChained : IsChained b
  /-- Of several bytes the last holds a digit. -/
  last_ne_zero : 1 < b.length → b.getLast? ≠ some 0
  /-- Zero has no sign. -/
  ne_minus_zero : b ≠ [0x40]

/-- The magnitude that bytes stand for. -/
def magnitude : Bytes → Nat
  | [] => 0
  | first :: groups =>
    first.toNat % 64 + ∑ i, (groups.get i).toNat % 128 * 2 ^ (6 + 7 * (i : Nat))

/-- The number that bytes stand for.  The second bit of the first byte is the sign. -/
def value : Bytes → Int
  | [] => 0
  | first :: groups => signed (first.toNat.testBit 6) (magnitude (first :: groups))

/-! ### The groups behind the first byte -/

/-- The bytes behind the first byte of a number, if there are any. -/
@[mk_iff]
structure IsGroups (gs : Bytes) : Prop where
  ne_nil : gs ≠ []
  isChained : IsChained gs
  last_ne_zero : gs.getLast? ≠ some 0

/-- The number that groups of seven bits stand for. -/
def groupsValue (gs : Bytes) : Nat := ∑ i, (gs.get i).toNat % 128 * 128 ^ (i : Nat)

lemma testBit_seven (x : UInt8) : x.toNat.testBit 7 = true ↔ 128 ≤ x.toNat := by
  have hbound := x.toNat_lt
  rw [Nat.testBit_eq_decide_div_mod_eq, decide_eq_true_iff]
  omega

lemma eq_iff_toNat_eq {x y : UInt8} : x = y ↔ x.toNat = y.toNat :=
  ⟨congrArg UInt8.toNat, UInt8.toNat.inj⟩

/-- A chain of bytes ends with the first byte below 128. -/
lemma isChained_cons {x : UInt8} {b : Bytes} :
    IsChained (x :: b) ↔
      (b = [] ∧ x.toNat < 128) ∨ (b ≠ [] ∧ 128 ≤ x.toNat ∧ IsChained b) := by
  have hsplit : IsChained (x :: b) ↔ (128 ≤ x.toNat ↔ b ≠ []) ∧ IsChained b := by
    rw [← testBit_seven, ← List.length_pos_iff]
    constructor
    · intro h
      refine ⟨(h 0 (Nat.zero_lt_succ _)).trans (by simp), fun i hi => ?_⟩
      exact (h (i + 1) (Nat.succ_lt_succ hi)).trans (by simp)
    · rintro ⟨hx, hb⟩ (_ | i) hi
      · exact hx.trans (by simp)
      · exact (hb i (Nat.lt_of_succ_lt_succ hi)).trans (by simp)
  rw [hsplit]
  rcases b with _ | ⟨y, b⟩
  · simp [IsChained]
  · simp

lemma isGroups_cons {x : UInt8} {gs : Bytes} :
    IsGroups (x :: gs) ↔
      (gs = [] ∧ x.toNat < 128 ∧ x.toNat ≠ 0) ∨ (128 ≤ x.toNat ∧ IsGroups gs) := by
  rw [isGroups_iff, isGroups_iff, isChained_cons]
  rcases gs with _ | ⟨y, gs⟩
  · simp [eq_iff_toNat_eq]
  · simp [and_assoc]

lemma groupsValue_nil : groupsValue [] = 0 := rfl

lemma groupsValue_cons (x : UInt8) (gs : Bytes) :
    groupsValue (x :: gs) = x.toNat % 128 + 128 * groupsValue gs := by
  have hshift : ∀ i, ((x :: gs).get (Fin.succ i)).toNat % 128 * 128 ^ (i.succ : Nat) =
      128 * ((gs.get i).toNat % 128 * 128 ^ (i : Nat)) := by
    intro i
    rw [List.get_cons_succ', Fin.val_succ, pow_succ]
    ring
  have hsum : groupsValue (x :: gs) = x.toNat % 128 * 128 ^ 0 +
      ∑ i, ((x :: gs).get (Fin.succ i)).toNat % 128 * 128 ^ (i.succ : Nat) :=
    Fin.sum_univ_succ fun i => ((x :: gs).get i).toNat % 128 * 128 ^ (i : Nat)
  rw [hsum, Fintype.sum_congr _ _ hshift, ← Finset.mul_sum, pow_zero, mul_one, groupsValue]

/-- The reader of the groups goes by the grammar. -/
lemma groups_eq_ok_iff {b rest : Bytes} {n : Nat} :
    groups b = .ok n rest ↔ ∃ gs, b = gs ++ rest ∧ IsGroups gs ∧ groupsValue gs = n := by
  constructor
  · intro h
    induction b generalizing n with
    | nil => cases h
    | cons x b ih =>
      rcases groups_cons_eq_ok h with ⟨hx, h0, rfl, rfl⟩ | ⟨hx, m, hm, rfl⟩
      · refine ⟨[x], rfl, isGroups_cons.2 (Or.inl ⟨rfl, hx, h0⟩), ?_⟩
        rw [groupsValue_cons, groupsValue_nil, Nat.mod_eq_of_lt hx]
        rfl
      · obtain ⟨gs, rfl, hgs, rfl⟩ := ih hm
        refine ⟨x :: gs, rfl, isGroups_cons.2 (Or.inr ⟨hx, hgs⟩), ?_⟩
        have hbound := x.toNat_lt
        rw [groupsValue_cons]
        omega
  · rintro ⟨gs, rfl, hgs, rfl⟩
    induction gs with
    | nil => exact absurd rfl hgs.ne_nil
    | cons x gs ih =>
      rw [groupsValue_cons]
      rcases isGroups_cons.1 hgs with ⟨rfl, hx, h0⟩ | ⟨hx, hgs⟩
      · rw [groupsValue_nil, Nat.mod_eq_of_lt hx]
        exact groups_cons_last rest hx h0
      · have hbound := x.toNat_lt
        have hmod : x.toNat % 128 = x.toNat - 128 := by omega
        rw [hmod]
        exact groups_cons_more hx (ih hgs)

/-! ### Whole numbers -/

lemma isForm_cons {x : UInt8} {gs : Bytes} :
    IsForm (x :: gs) ↔
      (gs = [] ∧ x.toNat < 128 ∧ x.toNat ≠ 64) ∨ (128 ≤ x.toNat ∧ IsGroups gs) := by
  rw [isForm_iff, isGroups_iff, isChained_cons]
  rcases gs with _ | ⟨y, gs⟩
  · simp [eq_iff_toNat_eq]
  · simp [and_assoc]

lemma magnitude_cons (x : UInt8) (gs : Bytes) :
    magnitude (x :: gs) = x.toNat % 64 + 64 * groupsValue gs := by
  have hshift : ∀ i, (gs.get i).toNat % 128 * 2 ^ (6 + 7 * (i : Nat)) =
      64 * ((gs.get i).toNat % 128 * 128 ^ (i : Nat)) := by
    intro i
    rw [pow_add, pow_mul]
    ring
  rw [magnitude, Fintype.sum_congr _ _ hshift, ← Finset.mul_sum, groupsValue]

lemma value_cons (x : UInt8) (gs : Bytes) :
    value (x :: gs) = signed (x.toNat.testBit 6) (x.toNat % 64 + 64 * groupsValue gs) := by
  rw [value, magnitude_cons]

lemma testBit_six (x : UInt8) : x.toNat.testBit 6 = true ↔ x.toNat / 64 % 2 = 1 := by
  rw [Nat.testBit_eq_decide_div_mod_eq, decide_eq_true_iff]

lemma toNat_parts (x : UInt8) :
    x.toNat = (if decide (128 ≤ x.toNat) then 128 else 0) +
      (if x.toNat.testBit 6 then 64 else 0) + x.toNat % 64 := by
  have hbound := x.toNat_lt
  simp only [decide_eq_true_eq, testBit_six]
  split <;> split <;> omega

/-- A first byte below 128 is the whole number, unless it is zero with a sign. -/
lemma decode_cons_of_lt {x : UInt8} (hx : x.toNat < 128) (b : Bytes) :
    decode (x :: b) =
      if x.toNat = 64 then .error (.invalidInteger .negativeZero) b else .ok (value [x]) b := by
  have hminus : x.toNat.testBit 6 = true ∧ x.toNat % 64 = 0 ↔ x.toNat = 64 := by
    rw [testBit_six]
    omega
  rw [decode_cons b (toNat_parts x) (Nat.mod_lt _ (by decide)), if_neg (by simpa using hx)]
  simp only [hminus, value_cons, groupsValue_nil, Nat.mul_zero, Nat.add_zero]

/-- Groups follow a first byte from 128 on. -/
lemma decode_cons_of_le {x : UInt8} (hx : 128 ≤ x.toNat) (b : Bytes) :
    decode (x :: b) =
      match groups b with
      | .ok n rest => .ok (signed (x.toNat.testBit 6) (x.toNat % 64 + 64 * n)) rest
      | .error e rest => .error e rest := by
  have h := decode_cons b (toNat_parts x) (Nat.mod_lt _ (by decide))
  rw [if_pos (by simpa using hx)] at h
  exact h

/-- The reader goes by the grammar, and returns what the bytes stand for. -/
lemma decode_eq_ok_iff_exists {b rest : Bytes} {v : Int} :
    decode b = .ok v rest ↔ ∃ form, b = form ++ rest ∧ IsForm form ∧ value form = v := by
  constructor
  · intro h
    rcases b with _ | ⟨x, b⟩
    · cases h
    · by_cases hx : x.toNat < 128
      · rw [decode_cons_of_lt hx] at h
        split at h
        case isTrue => cases h
        case isFalse h64 =>
          cases h
          exact ⟨[x], rfl, isForm_cons.2 (Or.inl ⟨rfl, hx, h64⟩), rfl⟩
      · rw [decode_cons_of_le (Nat.not_lt.1 hx)] at h
        split at h
        case h_2 => cases h
        case h_1 n left hgroups =>
          cases h
          obtain ⟨gs, rfl, hgs, rfl⟩ := groups_eq_ok_iff.1 hgroups
          exact ⟨x :: gs, rfl, isForm_cons.2 (Or.inr ⟨Nat.not_lt.1 hx, hgs⟩), value_cons x gs⟩
  · rintro ⟨_ | ⟨x, gs⟩, rfl, hform, rfl⟩
    · exact absurd rfl hform.ne_nil
    · rw [List.cons_append]
      rcases isForm_cons.1 hform with ⟨rfl, hx, h64⟩ | ⟨hx, hgs⟩
      · rw [decode_cons_of_lt hx, if_neg h64, List.nil_append]
      · have hgroups : groups (gs ++ rest) = .ok (groupsValue gs) rest :=
          groups_eq_ok_iff.2 ⟨gs, rfl, hgs, rfl⟩
        rw [decode_cons_of_le hx, hgroups, value_cons]

/-- Reading a byte string gives what it is the bytes of. -/
lemma decode_eq_ok_nil_iff {b : Bytes} {v : Int} : decode b = .ok v [] ↔ b = encode v := by
  constructor
  · intro h
    have hb := (decode_exact b v [] h).1
    rwa [List.append_nil] at hb
  · rintro rfl
    have h := reads_decode v []
    rwa [List.append_nil] at h

/-- A number is read off the front of a byte string exactly when the byte string starts with bytes
of the grammar, which are taken, and the number is what these stand for.  The bytes of a number
are the ones of the grammar that stand for it, and no others are. -/
theorem decode_eq_ok_iff_isForm :
    (∀ b v rest, decode b = .ok v rest ↔
      ∃ form, b = form ++ rest ∧ IsForm form ∧ value form = v) ∧
    ∀ v form, form = encode v ↔ IsForm form ∧ value form = v := by
  refine ⟨fun b v rest => decode_eq_ok_iff_exists, fun v form => ?_⟩
  rw [← decode_eq_ok_nil_iff, decode_eq_ok_iff_exists]
  simp

example : value [0xc0, 0x01] = -64 := by decide

end Michelson.Zarith
