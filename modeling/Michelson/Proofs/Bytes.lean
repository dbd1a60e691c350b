/-
# Big-endian numbers

The two readings of bytes as numbers undo each other: a number below `256 ^ count` is the number
that its `count` bytes spell, and a byte string is the spelling of its number.  For the four-byte
word in front of a sized payload this says that every length below 2³² has one word.
-/
import Mathlib.Tactic
import Michelson.Bytes

namespace Michelson.Bytes

lemma foldl_toNat (b : Bytes) (n : Nat) :
    b.foldl (fun n x => 256 * n + x.toNat) n = n * 256 ^ b.length + toNat b := by
  induction b generalizing n with
  | nil => simp [toNat]
  | cons x b ih =>
    have htail : toNat (x :: b) = x.toNat * 256 ^ b.length + toNat b := by
      rw [toNat, List.foldl_cons, Nat.mul_zero, Nat.zero_add, ih]
    rw [List.foldl_cons, ih, htail, List.length_cons]
    ring

lemma toNat_cons (x : UInt8) (b : Bytes) : toNat (x :: b) = x.toNat * 256 ^ b.length + toNat b := by
  rw [toNat, List.foldl_cons, Nat.mul_zero, Nat.zero_add, foldl_toNat]

lemma toNat_append (a b : Bytes) : toNat (a ++ b) = toNat a * 256 ^ b.length + toNat b := by
  rw [toNat, List.foldl_append, foldl_toNat, ← toNat]

lemma toNat_lt (b : Bytes) : toNat b < 256 ^ b.length := by
  induction b with
  | nil => simp [toNat]
  | cons x b ih =>
    have hx : x.toNat + 1 ≤ 256 := UInt8.toNat_lt x
    calc toNat (x :: b) = x.toNat * 256 ^ b.length + toNat b := toNat_cons x b
      _ < x.toNat * 256 ^ b.length + 256 ^ b.length := by omega
      _ = (x.toNat + 1) * 256 ^ b.length := by rw [Nat.add_mul, Nat.one_mul]
      _ ≤ 256 * 256 ^ b.length := Nat.mul_le_mul_right _ hx
      _ = 256 ^ (x :: b).length := by rw [List.length_cons, Nat.pow_succ, Nat.mul_comm]

/-- The last `count` digits of a number are its remainder. -/
lemma toNat_ofNat (count n : Nat) : toNat (ofNat count n) = n % 256 ^ count := by
  induction count with
  | zero => simp [ofNat, toNat, Nat.mod_one]
  | succ count ih =>
    have hdigit : (UInt8.ofNat (n / 256 ^ count)).toNat = n / 256 ^ count % 256 := by
      simp [UInt8.toNat_ofNat']
    calc toNat (ofNat (count + 1) n)
        = (UInt8.ofNat (n / 256 ^ count)).toNat * 256 ^ count + n % 256 ^ count := by
          rw [ofNat, toNat_cons, length_ofNat, ih, Nat.pow_eq]
      _ = n % 256 ^ count + 256 ^ count * (n / 256 ^ count % 256) := by
          rw [hdigit, Nat.mul_comm, Nat.add_comm]
      _ = n % 256 ^ (count + 1) := by rw [Nat.pow_succ, Nat.mod_mul]

/-- More significant digits do not change the last ones. -/
lemma ofNat_mul_add (count k n : Nat) : ofNat count (k * 256 ^ count + n) = ofNat count n := by
  suffices h : ∀ j ≤ count, ofNat j (k * 256 ^ count + n) = ofNat j n from
    h count (Nat.le_refl count)
  intro j
  induction j with
  | zero => intro _; rfl
  | succ j ih =>
    intro hj
    have hpow : k * 256 ^ count = 256 ^ j * (256 * (k * 256 ^ (count - (j + 1)))) := by
      have hc : count = j + 1 + (count - (j + 1)) := by omega
      conv_lhs => rw [hc, Nat.pow_add, Nat.pow_succ]
      ac_rfl
    have hdigit : UInt8.ofNat ((k * 256 ^ count + n) / 256 ^ j) = UInt8.ofNat (n / 256 ^ j) := by
      apply UInt8.toNat.inj
      rw [hpow, Nat.mul_add_div (by positivity)]
      simp only [UInt8.toNat_ofNat', Nat.reducePow]
      omega
    rw [ofNat, ofNat, Nat.pow_eq, hdigit, ih (by omega)]

/-- A byte string is the spelling of its number. -/
lemma ofNat_toNat (b : Bytes) : ofNat b.length (toNat b) = b := by
  induction b with
  | nil => rfl
  | cons x b ih =>
    have hdiv : (x.toNat * 256 ^ b.length + toNat b) / 256 ^ b.length = x.toNat := by
      rw [Nat.mul_comm, Nat.mul_add_div (by positivity), Nat.div_eq_of_lt (toNat_lt b),
        Nat.add_zero]
    rw [List.length_cons, toNat_cons, ofNat, Nat.pow_eq, hdiv, ofNat_mul_add, ih,
      UInt8.ofNat_toNat]

/-! ### Payloads behind their length -/

/-- A payload is short when its length fits into a word. -/
def IsShort (payload : Bytes) : Prop := payload.length < 0x100000000

/-- A payload behind the word of its length. -/
def sized (payload : Bytes) : Bytes := word payload.length ++ payload

lemma length_word (n : Nat) : (word n).length = 4 :=
  length_ofNat 4 n

lemma length_sized (payload : Bytes) : payload.sized.length = 4 + payload.length := by
  rw [sized, List.length_append, length_word]

lemma sized_append (payload rest : Bytes) :
    payload.sized ++ rest = word payload.length ++ (payload ++ rest) := by
  rw [sized, List.append_assoc]

lemma toNat_word {n : Nat} (h : n < 0x100000000) : toNat (word n) = n := by
  rw [word, toNat_ofNat]
  exact Nat.mod_eq_of_lt h

lemma word_toNat {b : Bytes} (h : b.length = 4) : word (toNat b) = b := by
  rw [word, ← h, ofNat_toNat]

lemma toNat_lt_of_length {b : Bytes} (h : b.length = 4) : toNat b < 0x100000000 := by
  have hlt := toNat_lt b
  rwa [h] at hlt

end Michelson.Bytes
