/-
# Base-58 numerals

A byte string is some zero bytes and the bytes of a number, a text is some ones and the digits of
a number, and neither number has a leading zero.  The codec keeps the zeros and the number, so a
byte string is read back from its text as long as its number is not too great (`decode_encode_of_lt`),
and a text is the text of the bytes that it spells (`eq_encode_of_decode`).
-/
import Mathlib.Tactic
import Mathlib.Data.Nat.Digits.Lemmas
import Michelson.Base58
import Michelson.Proofs.Bytes
import Michelson.Proofs.Except

namespace Michelson

namespace Utf8

lemma encode_injective : Function.Injective encode := by
  intro s t h
  have hdecode := congrArg decode? h
  rwa [decode?_encode, decode?_encode, Option.some.injEq] at hdecode

/-- Characters of one byte each. -/
lemma encode_ofList {cs : List Char} (h : ∀ c ∈ cs, c.utf8Size = 1) :
    encode (String.ofList cs) = cs.map fun c => c.val.toUInt8 := by
  have hflat : cs.flatMap String.utf8EncodeChar = cs.map fun c => c.val.toUInt8 := by
    rw [List.map_eq_flatMap]
    exact List.flatMap_congr fun c hc => String.utf8EncodeChar_eq_singleton (h c hc)
  simp [encode, List.utf8Encode, hflat]

/-- The code of the character that a byte stands for is the byte. -/
lemma toUInt8_ofNat (x : UInt8) : (Char.ofNat x.toNat).val.toUInt8 = x := by
  have hall : ∀ n < 256, (Char.ofNat n).val.toUInt8 = UInt8.ofNat n := by decide +kernel
  rw [hall x.toNat x.toNat_lt, UInt8.ofNat_toNat]

end Utf8

namespace Base58

variable {b c : Bytes} {text : String} {n m position : Nat} {ds : List Nat}

/-! ### Leading zeros -/

/-- The front of a list is what equals a value, if nothing behind it does. -/
lemma takeWhile_append_eq {x : UInt8} {zeros rest : Bytes} (hzeros : ∀ z ∈ zeros, z = x)
    (hrest : rest.head? ≠ some x) : (zeros ++ rest).takeWhile (· == x) = zeros := by
  rw [List.takeWhile_append_of_pos fun z hz => beq_iff_eq.2 (hzeros z hz)]
  cases rest with
  | nil => simp
  | cons y rest =>
    have hy : ¬ (y == x) = true := fun heq => hrest (congrArg some (eq_of_beq heq))
    have htail : (y :: rest).takeWhile (· == x) = [] := List.takeWhile_cons_of_neg hy
    rw [htail, List.append_nil]

/-- Every list is such a front and the rest. -/
lemma exists_zeros_append (x : UInt8) (b : Bytes) :
    ∃ zeros rest, b = zeros ++ rest ∧ (∀ z ∈ zeros, z = x) ∧ rest.head? ≠ some x := by
  refine ⟨b.takeWhile (· == x), b.dropWhile (· == x), List.takeWhile_append_dropWhile.symm,
    fun z hz => eq_of_beq (List.all_eq_true.1 List.all_takeWhile z hz), fun hhead => ?_⟩
  have hnot := List.head?_dropWhile_not (· == x) b
  rw [hhead] at hnot
  simp at hnot

lemma map_const_eq {x : UInt8} {zeros : Bytes} (hzeros : ∀ z ∈ zeros, z = x) :
    zeros.map (fun _ => x) = zeros :=
  (List.map_congr_left fun z hz => (hzeros z hz).symm).trans (List.map_id' zeros)

lemma toNat_zeros_append {zeros : Bytes} (hzeros : ∀ z ∈ zeros, z = 0) (c : Bytes) :
    Bytes.toNat (zeros ++ c) = Bytes.toNat c := by
  induction zeros with
  | nil => rfl
  | cons z zeros ih =>
    obtain ⟨rfl, hrest⟩ := List.forall_mem_cons.1 hzeros
    rw [List.cons_append, Bytes.toNat_cons, ih hrest]
    simp

/-! ### The bytes of a number -/

lemma byteLength_eq {k : Nat} (hlow : 256 ^ k ≤ n) (hhigh : n < 256 ^ (k + 1)) :
    byteLength n = k + 1 := by
  have hpos : n ≠ 0 := (Nat.lt_of_lt_of_le (Nat.pow_pos (by decide)) hlow).ne'
  have hbits : ∀ j : Nat, 256 ^ j = 2 ^ (8 * j) := fun j => by rw [pow_mul]; rfl
  rw [hbits, ← Nat.le_log2 hpos] at hlow
  rw [hbits, ← Nat.log2_lt hpos] at hhigh
  rw [byteLength, if_neg hpos]
  omega

/-- A byte string without a leading zero is as long as its number. -/
lemma byteLength_toNat (h : c.head? ≠ some 0) : byteLength (Bytes.toNat c) = c.length := by
  cases c with
  | nil => rfl
  | cons x c =>
    have hx : x ≠ 0 := fun heq => h (congrArg some heq)
    have hone : 1 ≤ x.toNat := Nat.one_le_iff_ne_zero.2 fun hzero => hx (UInt8.toNat.inj hzero)
    refine byteLength_eq ?_ (Bytes.toNat_lt (x :: c))
    rw [Bytes.toNat_cons]
    exact (Nat.le_mul_of_pos_left _ hone).trans (Nat.le_add_right _ _)

/-- The bytes of a number have no leading zero and spell it. -/
lemma ofNat_byteLength (n : Nat) :
    (Bytes.ofNat (byteLength n) n).head? ≠ some 0 ∧
      Bytes.toNat (Bytes.ofNat (byteLength n) n) = n := by
  rcases Nat.eq_zero_or_pos n with rfl | hpos
  · exact ⟨nofun, rfl⟩
  · obtain ⟨k, hlow, hhigh⟩ : ∃ k, 256 ^ k ≤ n ∧ n < 256 ^ (k + 1) :=
      ⟨Nat.log 256 n, Nat.pow_log_le_self 256 hpos.ne', Nat.lt_pow_succ_log_self (by decide) n⟩
    rw [byteLength_eq hlow hhigh]
    constructor
    · intro hhead
      have hlead : (UInt8.ofNat (n / 256 ^ k)).toNat = 0 := by
        rw [Bytes.ofNat, List.head?_cons, Option.some.injEq, Nat.pow_eq] at hhead
        rw [hhead]
        rfl
      have hdigit : 0 < n / 256 ^ k ∧ n / 256 ^ k < 256 :=
        ⟨Nat.div_pos hlow (Nat.pow_pos (by decide)), Nat.div_lt_of_lt_mul (by rwa [← pow_succ])⟩
      rw [UInt8.toNat_ofNat', Nat.mod_eq_of_lt hdigit.2] at hlead
      exact hdigit.1.ne' hlead
    · rw [Bytes.toNat_ofNat, Nat.mod_eq_of_lt hhigh]

/-! ### The digits of a number -/

/-- The digit of a value. -/
def digit (d : Nat) : Char := alphabet.getD d '1'

/-- The ASCII code of a digit. -/
def digitCode (d : Nat) : UInt8 := (digit d).val.toUInt8

lemma digitCode_zero : digitCode 0 = 0x31 := by
  decide

lemma utf8Size_digit {d : Nat} (h : d < 58) : (digit d).utf8Size = 1 := by
  revert d
  decide

lemma digitValue?_digitCode {d : Nat} (h : d < 58) : digitValue? (digitCode d) = some d := by
  revert d
  decide

/-- The code of a digit gives its value, and no other byte does. -/
lemma digitValue?_eq_some_iff {x : UInt8} {d : Nat} :
    digitValue? x = some d ↔ d < 58 ∧ x = digitCode d := by
  constructor
  · intro h
    obtain ⟨hd, hchar, -⟩ := List.idxOf?_eq_some_iff.1 h
    have hdigit : digit d = Char.ofNat x.toNat := by
      rw [← hchar, digit, List.getD_eq_getElem?_getD, List.getElem?_eq_getElem hd, Option.getD_some]
    exact ⟨hd, by rw [digitCode, hdigit, Utf8.toUInt8_ofNat]⟩
  · rintro ⟨hd, rfl⟩
    exact digitValue?_digitCode hd

lemma digitCode_ne_zero {d : Nat} (h : d < 58) (hne : d ≠ 0) : digitCode d ≠ digitCode 0 := by
  intro heq
  have hzero : digitValue? (digitCode 0) = some 0 := digitValue?_digitCode (by decide)
  rw [← heq, digitValue?_digitCode h] at hzero
  exact hne (Option.some.inj hzero)

/-- The values of the digits of a number, most significant first. -/
def values (n : Nat) : List Nat := (Nat.digits 58 n).reverse

lemma lt_of_mem_values {d : Nat} (h : d ∈ values n) : d < 58 :=
  Nat.digits_lt_base (by decide) (List.mem_reverse.1 h)

lemma values_of_ne_zero (h : n ≠ 0) : values n = values (n / 58) ++ [n % 58] := by
  rw [values, values, Nat.digits_def' (by decide) (Nat.pos_of_ne_zero h), List.reverse_cons]

lemma head?_values_ne (n : Nat) : (values n).head? ≠ some 0 := by
  rw [values, List.head?_reverse]
  rcases eq_or_ne n 0 with rfl | hn
  · simp
  · rw [List.getLast?_eq_getLast_of_ne_nil (Nat.digits_ne_nil_iff_ne_zero.2 hn)]
    exact fun heq => Nat.getLast_digit_ne_zero 58 hn (Option.some.inj heq)

lemma digits_eq (n : Nat) (rest : List Char) : digits n rest = (values n).map digit ++ rest := by
  induction n using Nat.strong_induction_on generalizing rest with
  | _ n ih =>
    rw [digits]
    split
    case isTrue hzero =>
      rw [hzero]
      rfl
    case isFalse hne =>
      rw [ih (n / 58) (by omega), values_of_ne_zero hne, List.map_append, List.append_assoc]
      rfl

/-- The number that the values of digits stand for, behind another number. -/
def ofValues (n : Nat) (ds : List Nat) : Nat := ds.foldl (fun n d => 58 * n + d) n

lemma ofValues_zero (ds : List Nat) : ofValues 0 ds = Nat.ofDigits 58 ds.reverse := by
  rw [Nat.ofDigits_eq_foldr, List.foldr_reverse, ofValues]
  congr 1
  funext n d
  rw [Nat.cast_id, Nat.add_comm]

lemma ofValues_values (n : Nat) : ofValues 0 (values n) = n := by
  rw [ofValues_zero, values, List.reverse_reverse, Nat.ofDigits_digits]

/-- Digits without a leading zero are those of their number. -/
lemma values_ofValues (hds : ∀ d ∈ ds, d < 58) (hhead : ds.head? ≠ some 0) :
    values (ofValues 0 ds) = ds := by
  rw [ofValues_zero, values, Nat.digits_ofDigits 58 (by decide), List.reverse_reverse]
  · exact fun d hd => hds d (List.mem_reverse.1 hd)
  · intro hne hlast
    rw [List.getLast_reverse] at hlast
    exact hhead ((List.head?_eq_some_head _).trans (congrArg some hlast))

lemma le_ofValues (n : Nat) (ds : List Nat) : n ≤ ofValues n ds := by
  induction ds generalizing n with
  | nil => exact le_rfl
  | cons d ds ih =>
    have hnext := ih (58 * n + d)
    rw [ofValues, List.foldl_cons]
    rw [ofValues] at hnext
    omega

/-- Reading digits gives their number, unless it is too great. -/
lemma number_digitCode (hds : ∀ d ∈ ds, d < 58) (hbound : ofValues n ds < Nat.pow 256 maxBytes) :
    number n position (ds.map digitCode) = .ok (ofValues n ds) := by
  induction ds generalizing n position with
  | nil => rfl
  | cons d ds ih =>
    obtain ⟨hd, hrest⟩ := List.forall_mem_cons.1 hds
    have hnext : 58 * n + d < Nat.pow 256 maxBytes := (le_ofValues (58 * n + d) ds).trans_lt hbound
    rw [List.map_cons, number, digitValue?_digitCode hd]
    exact (if_pos hnext).trans (ih hrest hbound)

/-- Only digits are read. -/
lemma exists_values_of_number {codes : Bytes} (h : number n position codes = .ok m) :
    ∃ ds, (∀ d ∈ ds, d < 58) ∧ codes = ds.map digitCode ∧ m = ofValues n ds := by
  induction codes generalizing n position with
  | nil =>
    cases h
    exact ⟨[], nofun, rfl, rfl⟩
  | cons x codes ih =>
    rw [number] at h
    split at h
    case h_1 => cases h
    case h_2 d hd =>
      obtain ⟨hlt, rfl⟩ := digitValue?_eq_some_iff.1 hd
      dsimp only at h
      split at h
      case isFalse => cases h
      case isTrue =>
        obtain ⟨ds, hds, rfl, rfl⟩ := ih h
        exact ⟨d :: ds, List.forall_mem_cons.2 ⟨hlt, hds⟩, rfl, rfl⟩

/-! ### The characters of a text -/

lemma digit_mem_alphabet {d : Nat} (h : d < 58) : digit d ∈ alphabet := by
  have hlength : d < alphabet.length := h
  rw [digit, List.getD_eq_getElem?_getD, List.getElem?_eq_getElem hlength]
  exact List.getElem_mem hlength

lemma mem_alphabet_of_mem_encode {x : Char} (h : x ∈ (encode b).toList) : x ∈ alphabet := by
  rw [encode, String.toList_ofList, digits_eq, List.append_nil] at h
  rcases List.mem_append.1 h with h | h
  · obtain ⟨z, -, rfl⟩ := List.mem_map.1 h
    exact digit_mem_alphabet (by decide : 0 < 58)
  · obtain ⟨d, hd, rfl⟩ := List.mem_map.1 h
    exact digit_mem_alphabet (lt_of_mem_values hd)

/-! ### The codec -/

/-- The codes of the text of a byte string: a one for each leading zero and the digits of the
number. -/
lemma utf8_encode {zeros c : Bytes} (hzeros : ∀ z ∈ zeros, z = 0) (hc : c.head? ≠ some 0) :
    Utf8.encode (encode (zeros ++ c)) =
      zeros.map (fun _ => digitCode 0) ++ (values (Bytes.toNat c)).map digitCode := by
  have hsize : ∀ x ∈ zeros.map (fun _ => '1') ++ (values (Bytes.toNat c)).map digit,
      x.utf8Size = 1 := by
    intro x hx
    rcases List.mem_append.1 hx with hx | hx
    · obtain ⟨z, -, rfl⟩ := List.mem_map.1 hx
      rfl
    · obtain ⟨d, hd, rfl⟩ := List.mem_map.1 hx
      exact utf8Size_digit (lt_of_mem_values hd)
  rw [encode, takeWhile_append_eq hzeros hc, toNat_zeros_append hzeros, digits_eq, List.append_nil,
    Utf8.encode_ofList hsize, List.map_append, List.map_map, List.map_map, digitCode_zero]
  rfl

lemma head?_map_digitCode (hds : ∀ d ∈ ds, d < 58) (hhead : ds.head? ≠ some 0) :
    (ds.map digitCode).head? ≠ some (digitCode 0) := by
  cases ds with
  | nil => exact nofun
  | cons d ds =>
    have hne : d ≠ 0 := fun heq => hhead (congrArg some heq)
    exact fun heq => digitCode_ne_zero (hds d List.mem_cons_self) hne (Option.some.inj heq)

/-- What is read from the codes of a text: a zero for each leading one and the bytes of the number
behind them. -/
lemma decode_eq {ones rest : Bytes} (hcodes : Utf8.encode text = ones ++ rest)
    (hones : ∀ x ∈ ones, x = digitCode 0) (hrest : rest.head? ≠ some (digitCode 0)) :
    decode text = (number 0 ones.length rest).map fun n =>
      ones.map (fun _ => 0) ++ Bytes.ofNat (byteLength n) n := by
  have htake : (Utf8.encode text).takeWhile (· == 0x31) = ones := by
    rw [hcodes, ← digitCode_zero]
    exact takeWhile_append_eq hones hrest
  rw [decode, htake, hcodes, List.drop_left]
  rfl

/-- A byte string is read back from its text, if its number is not too great. -/
theorem decode_encode_of_lt (h : Bytes.toNat b < Nat.pow 256 maxBytes) : decode (encode b) = .ok b := by
  obtain ⟨zeros, c, rfl, hzeros, hc⟩ := exists_zeros_append 0 b
  rw [toNat_zeros_append hzeros] at h
  have hones : ∀ x ∈ zeros.map (fun _ => digitCode 0), x = digitCode 0 := by simp
  have hds : ∀ d ∈ values (Bytes.toNat c), d < 58 := fun d => lt_of_mem_values
  have hvalue := ofValues_values (Bytes.toNat c)
  have hrest := head?_map_digitCode hds (head?_values_ne (Bytes.toNat c))
  rw [decode_eq (utf8_encode hzeros hc) hones hrest, number_digitCode hds (by rwa [hvalue]), hvalue,
    Except.map, byteLength_toNat hc, Bytes.ofNat_toNat, List.map_map]
  exact congrArg (fun front => Except.ok (front ++ c)) (map_const_eq hzeros)

/-- A text is the text of the bytes that are read from it. -/
theorem eq_encode_of_decode (h : decode text = .ok b) : encode b = text := by
  obtain ⟨ones, rest, hcodes, hones, hrest⟩ := exists_zeros_append (digitCode 0) (Utf8.encode text)
  rw [decode_eq hcodes hones hrest] at h
  obtain ⟨n, hn, rfl⟩ := Except.map_eq_ok_iff.1 h
  obtain ⟨ds, hds, rfl, rfl⟩ := exists_values_of_number hn
  have hhead : ds.head? ≠ some 0 := by
    intro heq
    refine hrest ?_
    rw [List.head?_map, heq]
    rfl
  obtain ⟨hlead, hvalue⟩ := ofNat_byteLength (ofValues 0 ds)
  have hzeros : ∀ z ∈ ones.map (fun _ => (0 : UInt8)), z = 0 := by simp
  apply Utf8.encode_injective
  rw [utf8_encode hzeros hlead, hvalue, values_ofValues hds hhead, List.map_map, hcodes]
  exact congrArg (· ++ ds.map digitCode) (map_const_eq hones)

end Base58

end Michelson
