/-
# Base58-check text

A base58-check text spells three things in a row: the leading bytes, the payload, and a checksum of
both.  The reader knows the leading bytes and the length of a checksum, so it cuts the three apart
again.  Of the checksum only its length matters: it is the front of a digest of the bytes before it,
and any function with digests of 32 bytes gives a codec (`encodeWith`, `decodeWith`).  This is why
nothing here looks into the digest.

What makes the reader exact is `decodeWith_eq_ok_iff`.  With it a payload is read back from its text
because byte strings are, and a text is the text of what is read because that holds of byte strings.

The main statement is `isCodec_checked`.
-/
import Michelson.Proofs.Base58

namespace Michelson.Base58

variable {digest : Bytes → Bytes} {b head payload : Bytes} {text : String}

lemma stripHead?_eq_some_iff : Bytes.stripHead? head b = some payload ↔ b = head ++ payload := by
  rw [Bytes.stripHead?]
  constructor
  · intro h
    split at h
    case isTrue hhead =>
      obtain ⟨rest, rfl⟩ := List.isPrefixOf_iff_prefix.1 hhead
      rw [List.drop_left] at h
      rw [Option.some.inj h]
    case isFalse => cases h
  · rintro rfl
    rw [if_pos (List.isPrefixOf_iff_prefix.2 (List.prefix_append head payload)), List.drop_left]

/-! ### Checksums from any digest -/

lemma encodeWith_sha256 : encodeWith Sha256.digest = encodeChecked := rfl

lemma decodeWith_sha256 : decodeWith Sha256.digest = decodeChecked := rfl

section

variable (hdigest : ∀ b, (digest b).length = 32)
include hdigest

lemma length_checksumWith (b : Bytes) : (checksumWith digest b).length = checksumLength := by
  rw [checksumWith, List.length_take, hdigest]
  rfl

/-- Base58-check text holds the leading bytes, the payload and the checksum of both. -/
lemma decodeWith_eq_ok_iff :
    decodeWith digest head text = .ok payload ↔
      decode text = .ok (head ++ payload ++ checksumWith digest (head ++ payload)) := by
  rw [decodeWith, Except.bind_eq_ok_iff]
  constructor
  · rintro ⟨raw, hraw, h⟩
    split at h
    case isTrue => cases h
    case isFalse =>
      dsimp only at h
      split at h
      case isTrue => cases h
      case isFalse hsum =>
        split at h
        case h_2 => cases h
        case h_1 rest hstrip =>
          cases h
          rw [← stripHead?_eq_some_iff.1 hstrip, not_not.1 hsum, List.take_append_drop, hraw]
  · intro h
    refine ⟨_, h, ?_⟩
    have hsum := length_checksumWith hdigest (head ++ payload)
    have hbody : (head ++ payload ++ checksumWith digest (head ++ payload)).length -
        checksumLength = (head ++ payload).length := by
      rw [List.length_append, hsum, Nat.add_sub_cancel]
    have hlength : ¬ (head ++ payload ++ checksumWith digest (head ++ payload)).length <
        head.length + checksumLength := by
      simp only [List.length_append, hsum]
      omega
    rw [if_neg hlength, hbody, List.take_left, List.drop_left]
    simp only [stripHead?_eq_some_iff.2 rfl, ne_eq, not_true_eq_false, if_false]
    rfl

lemma decodeWith_encodeWith (h : head.length + payload.length + checksumLength ≤ maxBytes) :
    decodeWith digest head (encodeWith digest head payload) = .ok payload := by
  refine (decodeWith_eq_ok_iff hdigest).2 (decode_encode_of_lt ((Bytes.toNat_lt _).trans_le ?_))
  refine Nat.pow_le_pow_right (by decide) ?_
  rwa [List.length_append, List.length_append, length_checksumWith hdigest]

lemma encodeWith_of_decodeWith (h : decodeWith digest head text = .ok payload) :
    encodeWith digest head payload = text :=
  eq_encode_of_decode ((decodeWith_eq_ok_iff hdigest).1 h)

end

/-! ### The codec -/

/-- A writer and a reader of texts with leading bytes are a codec: as long as the leading bytes, the
payload and four bytes more are at most 132 bytes, the payload is read back from its text, and no
other text is read as this payload. -/
structure IsCodec (write : Bytes → Bytes → String)
    (read : Bytes → String → Except Base58Fault Bytes) : Prop where
  read_write : ∀ head payload, head.length + payload.length + 4 ≤ 132 →
    read head (write head payload) = .ok payload
  write_of_read : ∀ head text payload, read head text = .ok payload → write head payload = text

/-- Base58-check text is a codec, and it would be with any digest of 32 bytes in the place of the one
that the checksums are taken from. -/
theorem isCodec_checked :
    IsCodec encodeChecked decodeChecked ∧
      (∀ digest : Bytes → Bytes, (∀ b, (digest b).length = 32) →
        IsCodec (encodeWith digest) (decodeWith digest)) ∧
      encodeWith Sha256.digest = encodeChecked ∧ decodeWith Sha256.digest = decodeChecked := by
  have hwith : ∀ digest : Bytes → Bytes, (∀ b, (digest b).length = 32) →
      IsCodec (encodeWith digest) (decodeWith digest) := fun digest hdigest =>
    ⟨fun _ _ h => decodeWith_encodeWith hdigest h,
      fun _ _ _ h => encodeWith_of_decodeWith hdigest h⟩
  exact ⟨hwith Sha256.digest Sha256.length_digest, hwith, encodeWith_sha256, decodeWith_sha256⟩

/-- The text of an account.  The digest is SHA-256, the hash and the text are short enough, and what
is read from the text is the hash, whose text is the one that was read. -/
theorem isCodec_checked_account :
    let head : Bytes := [6, 161, 159]
    let hash : Bytes := [0x82, 0xee, 0xa6, 0x40, 0x43, 0x1c, 0x73, 0x17, 0x57, 0xa8, 0xb7, 0xee, 0x22,
      0x6d, 0xa7, 0xa7, 0x84, 0x79, 0x7d, 0xde]
    let text := "tz1XaLRi6i8qNDa4KyNjQcxFvFDDs8xi7nr1"
    (∀ b, (Sha256.digest b).length = 32) ∧ head.length + hash.length + 4 ≤ 132 ∧
      encodeWith Sha256.digest head hash = text ∧ decodeWith Sha256.digest head text = .ok hash ∧
      encodeChecked head hash = text := by
  intro head hash text
  obtain ⟨hchecked, hwith, -⟩ := isCodec_checked
  have hlength : head.length + hash.length + 4 ≤ 132 := by decide
  have htext : encodeWith Sha256.digest head hash = text := by decide +kernel
  have hread := (hwith Sha256.digest Sha256.length_digest).read_write head hash hlength
  rw [htext] at hread
  exact ⟨Sha256.length_digest, hlength, htext, hread, hchecked.write_of_read head text hash hread⟩

end Michelson.Base58
