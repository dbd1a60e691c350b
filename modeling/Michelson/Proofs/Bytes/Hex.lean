/-
# Hexadecimal text

The hexadecimal text of a byte string is read back as the byte string: each byte is written as two
digits of the reader, the digits of its two halves.
-/
import Mathlib.Tactic
import Michelson.Bytes.Hex

namespace Michelson

lemma Utf8.encode_append (s t : String) : encode (s ++ t) = encode s ++ encode t := by
  simp [encode, String.toByteArray_append]

namespace Bytes

/-- The two digits of a byte are one byte each, and the reader takes them for the halves. -/
lemma encode_hexByte (x : UInt8) : ∃ high low, Utf8.encode (Text.hexByte x) = [high, low] ∧
    hexValue? high = some (UInt8.ofNat (x.toNat / 16)) ∧
    hexValue? low = some (UInt8.ofNat (x.toNat % 16)) := by
  have hdigit : ∀ n < 16, ∃ c, String.utf8EncodeChar (Nat.digitChar n) = [c] ∧
      hexValue? c = some (UInt8.ofNat n) := by
    intro n hn
    interval_cases n <;> exact ⟨_, rfl, by decide⟩
  have hbound := x.toNat_lt
  obtain ⟨high, hhigh, hhighValue⟩ := hdigit (x.toNat / 16) (by omega)
  obtain ⟨low, hlow, hlowValue⟩ := hdigit (x.toNat % 16) (by omega)
  refine ⟨high, low, ?_, hhighValue, hlowValue⟩
  simp [Utf8.encode, Text.hexByte, List.utf8Encode, hhigh, hlow]

lemma ofHexDigits_toHex (b : Bytes) (position : Nat) :
    ofHexDigits position (Utf8.encode (toHex b)) = .ok b ∧
      (Utf8.encode (toHex b)).length % 2 = 0 := by
  induction b generalizing position with
  | nil => exact ⟨rfl, rfl⟩
  | cons x b ih =>
    obtain ⟨high, low, hdigits, hhigh, hlow⟩ := encode_hexByte x
    obtain ⟨hread, hlength⟩ := ih (position + 2)
    have htext : Utf8.encode (toHex (x :: b)) = high :: low :: Utf8.encode (toHex b) := by
      rw [toHex, List.map_cons, String.join_cons, Utf8.encode_append, hdigits]
      rfl
    have hbyte : 16 * UInt8.ofNat (x.toNat / 16) + UInt8.ofNat (x.toNat % 16) = x := by
      have hbound := x.toNat_lt
      apply UInt8.toNat.inj
      simp
      omega
    rw [htext]
    constructor
    · simp only [ofHexDigits, hhigh, hlow, hread, Except.map, hbyte]
    · simp only [List.length_cons]
      omega

/-- A byte string is read back from its hexadecimal text. -/
lemma ofHex_toHex (b : Bytes) : ofHex (toHex b) = .ok b := by
  obtain ⟨hread, hlength⟩ := ofHexDigits_toHex b 0
  rw [ofHex, if_pos hlength, hread]

lemma toHex_injective : Function.Injective toHex := by
  intro b c h
  have hread := ofHex_toHex b
  rw [h, ofHex_toHex] at hread
  exact (Except.ok.inj hread).symm

end Bytes

end Michelson
