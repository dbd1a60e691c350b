/-
# Binary forms of addresses and keys

The 22 bytes of an address are laid out in two ways.  An account has a zero byte, the tag of its
scheme and the hash; a contract or rollup has the byte of its class, the hash and a zero byte.  The
first byte tells the two apart, and what follows is cut where it was put together: each class is read
by one lemma (`ofBytes_implicit`, `ofBytes_originated`), and nothing but these layouts is read
(`toBytes_of_ofBytes`).  Without its first byte the form of an account is the hash of a key.  A key
is its tag and its bytes, whose number the tag tells.

So each address and each key has one binary form: the main statement is
`ofBytes_eq_ok_iff_toBytes`.
-/
import Michelson.Proofs.TextForm

namespace Michelson

namespace Scheme

variable {scheme : Scheme} {t : UInt8}

lemma ofTag?_eq_some_iff : ofTag? t = some scheme ↔ scheme.tag = t := by
  constructor
  · intro h
    exact beq_iff_eq.1 (List.find?_some (p := fun s : Scheme => s.tag == t) h)
  · rintro rfl
    cases scheme <;> rfl

lemma ofTag_eq_ok_iff : ofTag t = .ok scheme ↔ scheme.tag = t := by
  rw [← ofTag?_eq_some_iff, ofTag]
  cases ofTag? t <;> simp

/-- The tags are the bytes up to three. -/
lemma exists_tag_eq_iff : (∃ scheme : Scheme, scheme.tag = t) ↔ t ≤ 3 := by
  constructor
  · rintro ⟨scheme, rfl⟩
    cases scheme <;> decide
  · intro h
    have hcases : t = 0 ∨ t = 1 ∨ t = 2 ∨ t = 3 := by grind
    rcases hcases with rfl | rfl | rfl | rfl
    · exact ⟨ed25519, rfl⟩
    · exact ⟨secp256k1, rfl⟩
    · exact ⟨p256, rfl⟩
    · exact ⟨bls12_381, rfl⟩

end Scheme

namespace Address

variable {b hash : Bytes} {a : Address} {scheme : Scheme} {cls : AddressClass} {lead : UInt8}

/-! ### The two layouts -/

lemma originatedClass?_eq_some_iff : originatedClass? lead = some cls ↔
    (lead = 0x01 ∧ cls = .contract) ∨ (lead = 0x02 ∧ cls = .txRollup) ∨
      (lead = 0x03 ∧ cls = .smartRollup) := by
  constructor
  · intro h
    unfold originatedClass? at h
    split_ifs at h <;> simp_all
  · rintro (⟨rfl, rfl⟩ | ⟨rfl, rfl⟩ | ⟨rfl, rfl⟩) <;> rfl

lemma toBytes_of_originatedClass? (h : originatedClass? lead = some a.cls) :
    a.toBytes = lead :: (a.hash ++ [0x00]) := by
  rcases originatedClass?_eq_some_iff.1 h with ⟨rfl, hcls⟩ | ⟨rfl, hcls⟩ | ⟨rfl, hcls⟩ <;>
    rw [toBytes, hcls]

/-- The form of an account is read as this account. -/
lemma ofBytes_implicit (h : hash.length = hashLength) :
    ofBytes (0x00 :: scheme.tag :: hash) = .ok ⟨.implicit scheme, hash, h⟩ := by
  have hb : (0x00 :: scheme.tag :: hash).length = addressLength := by
    rw [List.length_cons, List.length_cons, h]
    rfl
  have htag : Scheme.ofTag? scheme.tag = some scheme := Scheme.ofTag?_eq_some_iff.2 rfl
  rw [ofBytes, dif_pos hb]
  dsimp only
  rw [if_pos rfl]
  split
  case h_1 scheme' hscheme =>
    obtain rfl := Option.some.inj (htag.symm.trans hscheme)
    rfl
  case h_2 hscheme => cases htag.symm.trans hscheme

/-- The form of a contract or rollup is read as this contract or rollup. -/
lemma ofBytes_originated (hlead : originatedClass? lead = some cls)
    (h : hash.length = hashLength) :
    ofBytes (lead :: (hash ++ [0x00])) = .ok ⟨cls, hash, h⟩ := by
  have hb : (lead :: (hash ++ [0x00])).length = addressLength := by
    rw [List.length_cons, List.length_append, h]
    rfl
  have hne : lead ≠ 0x00 := by
    rintro rfl
    cases hlead
  rw [ofBytes, dif_pos hb]
  dsimp only
  rw [if_neg hne]
  split
  case h_1 cls' hcls =>
    obtain rfl := Option.some.inj (hlead.symm.trans hcls)
    simp
  case h_2 hcls => cases hlead.symm.trans hcls

lemma ofBytes_toBytes (a : Address) : ofBytes a.toBytes = .ok a := by
  obtain ⟨cls, hash, hlength⟩ := a
  cases cls with
  | implicit scheme => exact ofBytes_implicit hlength
  | contract => exact ofBytes_originated rfl hlength
  | txRollup => exact ofBytes_originated rfl hlength
  | smartRollup => exact ofBytes_originated rfl hlength

/-- Bytes that are read as an address are the form of this address. -/
lemma toBytes_of_ofBytes (h : ofBytes b = .ok a) : a.toBytes = b := by
  unfold ofBytes at h
  split at h
  case isFalse => cases h
  case isTrue hlength =>
    split at h
    case h_2 => cases h
    case h_1 lead rest hlength =>
      split at h
      case isTrue hlead =>
        split at h
        case h_2 => cases h
        case h_1 tag hash hlength =>
          split at h
          case h_2 => cases h
          case h_1 scheme hscheme =>
            cases h
            rw [hlead, ← Scheme.ofTag?_eq_some_iff.1 hscheme]
            rfl
      case isFalse =>
        split at h
        case h_2 => cases h
        case h_1 cls hcls =>
          split at h
          case isFalse => cases h
          case isTrue hlast =>
            cases h
            rw [toBytes_of_originatedClass? hcls, List.dropLast_append_getLast? _ hlast]

lemma ofBytes_eq_ok_iff : ofBytes b = .ok a ↔ a.toBytes = b := by
  constructor
  · exact toBytes_of_ofBytes
  · rintro rfl
    exact ofBytes_toBytes a

/-! ### Hashes of keys -/

/-- Only the form of an account starts with a zero byte. -/
lemma exists_scheme_of_toBytes (h : a.toBytes = 0x00 :: b) :
    ∃ scheme, a.cls = .implicit scheme ∧ b = scheme.tag :: a.hash := by
  obtain ⟨cls, hash, hlength⟩ := a
  cases cls with
  | implicit scheme => exact ⟨scheme, rfl, (List.cons.inj h).2.symm⟩
  | contract => cases h
  | txRollup => cases h
  | smartRollup => cases h

lemma ofKeyHashBytes_eq_ok_iff :
    ofKeyHashBytes b = .ok a ↔ a.cls.isImplicit ∧ a.toBytes = 0x00 :: b := by
  rw [ofKeyHashBytes, ofBytes_eq_ok_iff, iff_and_self]
  intro h
  obtain ⟨scheme, hcls, -⟩ := exists_scheme_of_toBytes h
  rw [hcls]
  rfl

lemma exists_ofKeyHashBytes_iff :
    (∃ a, ofKeyHashBytes b = .ok a) ↔ b.length = 21 ∧ ∃ tag ≤ 3, b.head? = some tag := by
  constructor
  · rintro ⟨a, ha⟩
    obtain ⟨scheme, -, rfl⟩ := exists_scheme_of_toBytes (ofKeyHashBytes_eq_ok_iff.1 ha).2
    refine ⟨?_, scheme.tag, Scheme.exists_tag_eq_iff.1 ⟨scheme, rfl⟩, rfl⟩
    rw [List.length_cons, a.length_hash]
    rfl
  · rintro ⟨hlength, tag, htag, hhead⟩
    obtain ⟨hash, rfl⟩ := List.head?_eq_some_iff.1 hhead
    obtain ⟨scheme, rfl⟩ := Scheme.exists_tag_eq_iff.2 htag
    exact ⟨_, ofBytes_implicit (Nat.succ.inj hlength)⟩

end Address

namespace Key

variable {b data : Bytes} {k : Key} {scheme : Scheme}

lemma ofBytes_eq_ok_iff : ofBytes b = .ok k ↔ k.toBytes = b := by
  cases b with
  | nil => exact iff_of_false nofun nofun
  | cons tag data =>
    simp only [ofBytes, Except.bind_eq_ok_iff, Scheme.ofTag_eq_ok_iff, new_eq_ok_iff, toBytes,
      List.cons.injEq]
    constructor
    · rintro ⟨scheme, rfl, rfl, rfl⟩
      exact ⟨rfl, rfl⟩
    · rintro ⟨rfl, rfl⟩
      exact ⟨k.scheme, rfl, rfl, rfl⟩

lemma exists_new_iff : (∃ k, new scheme data = .ok k) ↔ data.length = scheme.keyLength := by
  constructor
  · rintro ⟨k, hk⟩
    obtain ⟨rfl, rfl⟩ := new_eq_ok_iff.1 hk
    exact k.length_data
  · intro h
    exact ⟨⟨scheme, data, h⟩, new_eq_ok_iff.2 ⟨rfl, rfl⟩⟩

end Key

/-- Each address and each key has one binary form: it is read from this form, and from no other
bytes.  The hash of a key is read from 21 bytes that start with a tag, and is the account whose form
is a zero byte and these bytes.  A key that is made of a scheme and as many bytes as the scheme says
has the tag and these bytes as its form. -/
theorem ofBytes_eq_ok_iff_toBytes :
    (∀ b a, Address.ofBytes b = .ok a ↔ a.toBytes = b) ∧
      (∀ b, (∃ a, Address.ofKeyHashBytes b = .ok a) ↔
        b.length = 21 ∧ ∃ tag ≤ 3, b.head? = some tag) ∧
      (∀ b a, Address.ofKeyHashBytes b = .ok a ↔ a.cls.isImplicit ∧ a.toBytes = 0x00 :: b) ∧
      (∀ b k, Key.ofBytes b = .ok k ↔ k.toBytes = b) ∧
      (∀ scheme data, (∃ k, Key.new scheme data = .ok k) ↔ data.length = scheme.keyLength) ∧
      ∀ scheme data k, Key.new scheme data = .ok k →
        k.toBytes = scheme.tag :: data ∧ Key.ofBytes k.toBytes = .ok k := by
  refine ⟨fun _ _ => Address.ofBytes_eq_ok_iff, fun _ => Address.exists_ofKeyHashBytes_iff,
    fun _ _ => Address.ofKeyHashBytes_eq_ok_iff, fun _ _ => Key.ofBytes_eq_ok_iff,
    fun _ _ => Key.exists_new_iff, fun scheme data k hk => ⟨?_, Key.ofBytes_eq_ok_iff.2 rfl⟩⟩
  obtain ⟨rfl, rfl⟩ := Key.new_eq_ok_iff.1 hk
  rfl

/-- The smart rollup whose hash ends with a zero byte, the hash of a key of the last scheme, and a
key of 48 bytes. -/
theorem ofBytes_eq_ok_iff_toBytes_long_key :
    let hash : Bytes := List.replicate 19 7 ++ [0]
    let data : Bytes := List.replicate 48 9
    Address.ofBytes (3 :: (hash ++ [0])) = .ok ⟨.smartRollup, hash, rfl⟩ ∧
      Address.ofKeyHashBytes (3 :: hash) = .ok ⟨.implicit .bls12_381, hash, rfl⟩ ∧
      Key.new .bls12_381 data = .ok ⟨.bls12_381, data, rfl⟩ ∧
      Key.ofBytes (3 :: data) = .ok ⟨.bls12_381, data, rfl⟩ := by
  intro hash data
  obtain ⟨haddress, -, hhash, -, -, hkey⟩ := ofBytes_eq_ok_iff_toBytes
  have hnew : Key.new .bls12_381 data = .ok ⟨.bls12_381, data, rfl⟩ := by rfl
  exact ⟨(haddress _ _).2 rfl, (hhash _ _).2 ⟨rfl, rfl⟩, hnew, (hkey _ _ _ hnew).2⟩

end Michelson
