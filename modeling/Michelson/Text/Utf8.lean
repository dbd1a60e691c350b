/-
# Text as bytes

The UTF-8 form of a text and its reading.  Reading succeeds exactly on the bytes that writing
produces, so a text has one byte form.
-/
import Michelson.Bytes

namespace Michelson.Utf8

/-- The UTF-8 bytes of a text. -/
def encode (s : String) : Bytes :=
  s.toByteArray.data.toList

/-- The text with these UTF-8 bytes, if they are well formed. -/
def decode? (b : Bytes) : Option String :=
  String.fromUTF8? ⟨b.toArray⟩

theorem decode?_encode (s : String) : decode? (encode s) = some s := by
  simp [decode?, encode, String.fromUTF8?, String.fromUTF8, s.isValidUTF8]

theorem encode_of_decode? {b : Bytes} {s : String} (h : decode? b = some s) : encode s = b := by
  simp only [decode?, String.fromUTF8?] at h
  split at h
  · cases h; simp [encode, String.fromUTF8]
  · cases h

/-- The characters with the codes of these bytes; for ASCII bytes this is their text. -/
def ofAscii (b : Bytes) : String :=
  String.ofList (b.map fun c => Char.ofNat c.toNat)

end Michelson.Utf8
