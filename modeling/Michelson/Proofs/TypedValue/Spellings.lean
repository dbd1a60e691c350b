/-
# Two spellings of one value

A value of an address type holds the bytes of an address or its text, and behind either may stand
the name of an entrypoint.  A value of a key type holds the bytes of a key or its text.  Rendering
and reading go different ways for the two: bytes are cut where an address ends and are shown as the
text that they stand for, a text is shown as it is, and what is read from a text is what is in front
of the first percent sign.

Both ways meet in the text of the address (`textAtWith`).  It has no percent sign of its own, since it is
a numeral, so the name behind it is cut off again whatever is in it; and what is left is read as the
address.  That the bytes lead to this text is `addressText?_toBytes_append`; the rest is the same for
both spellings.

Of the checksums in these texts only their length is used, so all of this is about any digest of 32
bytes.  The main statement is `shows_bytes_and_text`.
-/
import Michelson.Proofs.Binary.Annotations
import Michelson.Proofs.BinaryForm
import Michelson.Proofs.TypedValue.Rendering

namespace Michelson

namespace Address

variable {a : Address}

lemma length_toBytes (a : Address) : a.toBytes.length = addressLength := by
  obtain ⟨cls, hash, hlength⟩ := a
  cases cls <;> simp [toBytes, hlength, hashLength, addressLength]

/-- The text of an address, with the checksum of a digest function, and the name of an entrypoint
behind it, if there is one. -/
def textAtWith (digest : Bytes → Bytes) (a : Address) (entrypoint : String) : String :=
  if entrypoint = "" then a.toTextWith digest else a.toTextWith digest ++ "%" ++ entrypoint

/-- The text of an address with the name of an entrypoint behind it, if there is one. -/
def textAt (a : Address) (entrypoint : String) : String := a.textAtWith Sha256.digest entrypoint

variable {digest : Bytes → Bytes}

lemma textAtWith_empty (a : Address) : a.textAtWith digest "" = a.toTextWith digest :=
  if_pos rfl

lemma percent_not_mem_toTextWith (a : Address) : '%' ∉ (a.toTextWith digest).toList := fun h =>
  absurd (Base58.mem_alphabet_of_mem_encode h) (by decide)

/-- Whatever the name of the entrypoint is, in front of it stands the text of the address. -/
lemma beforeFirst_textAtWith (a : Address) (entrypoint : String) :
    Text.beforeFirst '%' (a.textAtWith digest entrypoint) = a.toTextWith digest := by
  have hpercent : "%" = String.singleton '%' := rfl
  rw [textAtWith, hpercent]
  split
  case isTrue => exact Text.beforeFirst_of_not_mem a.percent_not_mem_toTextWith
  case isFalse => exact Text.beforeFirst_append a.percent_not_mem_toTextWith entrypoint

lemma ofTextWith_beforeFirst_textAtWith (hdigest : ∀ b, (digest b).length = 32) (a : Address)
    (entrypoint : String) :
    (ofTextWith digest (Text.beforeFirst '%' (a.textAtWith digest entrypoint))).toOption =
      some a := by
  rw [beforeFirst_textAtWith, (ofTextWith_eq_ok_iff hdigest).2 rfl]
  rfl

end Address

namespace TypedValue

open Michelson.Expr

variable {digest : Bytes → Bytes} {type : Expr} {b : Bytes} {s : String} {u : Bool} {α : Type}

/-! ### Values without parts -/

/-- The types whose values are addresses. -/
def IsAddressType (type : Expr) : Prop :=
  type.applies (.type .address) ∨ type.applies (.type .contract) ∨ type.applies (.type .keyHash)

/-- A value is shown as a text, and `reading` takes something from it. -/
structure Shows (reading : TypedValue → Option α) (text : String) (a : α) (v : TypedValue) :
    Prop where
  render_eq : v.render = .ok (.text text)
  read?_eq : v.read? reading "" = some a

/-- A value without parts is shown as a text with the checksums of a digest function, and `reading`
takes something from it. -/
structure ShowsWith (digest : Bytes → Bytes) (reading : TypedValue → Option α) (text : String)
    (a : α) (v : TypedValue) : Prop where
  layout_eq : v.layout = .leaf
  side?_eq : v.side? = none
  renderLeafWith_eq : v.renderLeafWith digest = .ok (.text text)
  reading_eq : reading v = some a

/-- The empty path leads to the value itself where there is nothing to look through. -/
lemma read?_of_side? {v : TypedValue} (h : v.side? = none) (reading : TypedValue → Option α) :
    v.read? reading "" = reading v := by
  rw [read?, get, unwrap_of_side? h]
  rfl

/-- The whole value is rendered as a value without parts is, and the empty path leads to it. -/
lemma ShowsWith.shows {reading : TypedValue → Option α} {text : String} {a : α} {v : TypedValue}
    (h : ShowsWith Sha256.digest reading text a v) : Shows reading text a v where
  render_eq := by rw [render_leaf h.layout_eq, renderLeaf, h.renderLeafWith_eq]
  read?_eq := by rw [read?_of_side? h.side?_eq, h.reading_eq]

lemma IsAddressType.layout_eq (h : IsAddressType type) (value : Expr) :
    layout ⟨type, value⟩ = .leaf := by
  rcases h with h | h | h <;> rw [applies_iff] at h <;> simp only [layout, h]

lemma IsAddressType.side?_eq (h : IsAddressType type) (value : Expr) :
    side? ⟨type, value⟩ = none := by
  rcases h with h | h | h <;> rw [applies_iff] at h <;> simp only [side?, h]

/-- Bytes of an address type are shown as the text that they stand for. -/
lemma IsAddressType.renderLeafWith_bytes {text : String} (h : IsAddressType type)
    (htext : addressText? digest type b = some text) (u : Bool) :
    renderLeafWith digest ⟨type, literal (.bytes b) u⟩ = .ok (.text text) := by
  rcases h with h | h | h
  all_goals
    rw [applies_iff] at h
    simp only [renderLeafWith, h, bytes?, Option.bind_some, htext]

/-- A text of an address type is shown as it is. -/
lemma IsAddressType.renderLeafWith_string (h : IsAddressType type) (s : String) (u : Bool) :
    renderLeafWith digest ⟨type, literal (.string s) u⟩ = .ok (.text s) := by
  rcases h with h | h | h
  all_goals
    rw [applies_iff] at h
    simp only [renderLeafWith, h, bytes?, Option.bind_none, renderLiteral]

/-- From a text the address is read that stands in front of the first percent sign. -/
lemma addressWith?_string (type : Expr) (text : String) (u : Bool) :
    addressWith? digest ⟨type, literal (.string text) u⟩ =
      (Address.ofTextWith digest (Text.beforeFirst '%' text)).toOption := by
  simp only [addressWith?, string?, Option.orElse_eq_orElse, Option.orElse_some,
    Option.bind_eq_bind, Option.bind_some]

/-- From bytes the same is read as from the text that they stand for. -/
lemma addressWith?_bytes {text : String} (h : addressText? digest type b = some text) (u : Bool) :
    addressWith? digest ⟨type, literal (.bytes b) u⟩ =
      addressWith? digest ⟨type, literal (.string text) u⟩ := by
  simp only [addressWith?, string?, bytes?, h, Option.orElse_eq_orElse, Option.orElse_some,
    Option.orElse_none, Option.bind_eq_bind, Option.bind_some]

section

variable (hdigest : ∀ b, (digest b).length = 32)
include hdigest

lemma addressWith?_textAtWith (type : Expr) (a : Address) (entrypoint : String) (u : Bool) :
    addressWith? digest ⟨type, literal (.string (a.textAtWith digest entrypoint)) u⟩ = some a := by
  rw [addressWith?_string, a.ofTextWith_beforeFirst_textAtWith hdigest]

/-- Bytes that hold an address are shown as its text, and read as the address. -/
lemma IsAddressType.shows_bytes {a : Address} {entrypoint : String} (h : IsAddressType type)
    (htext : addressText? digest type b = some (a.textAtWith digest entrypoint)) (u : Bool) :
    ShowsWith digest (addressWith? digest) (a.textAtWith digest entrypoint) a
      ⟨type, literal (.bytes b) u⟩ where
  layout_eq := h.layout_eq _
  side?_eq := h.side?_eq _
  renderLeafWith_eq := h.renderLeafWith_bytes htext u
  reading_eq := by rw [addressWith?_bytes htext, addressWith?_textAtWith hdigest]

/-- The text of an address is shown as it is, and read as the address. -/
lemma IsAddressType.shows_text (h : IsAddressType type) (a : Address) (entrypoint : String)
    (u : Bool) :
    ShowsWith digest (addressWith? digest) (a.textAtWith digest entrypoint) a
      ⟨type, literal (.string (a.textAtWith digest entrypoint)) u⟩ where
  layout_eq := h.layout_eq _
  side?_eq := h.side?_eq _
  renderLeafWith_eq := h.renderLeafWith_string _ u
  reading_eq := addressWith?_textAtWith hdigest type a entrypoint u

end

/-! ### Bytes of addresses -/

/-- The bytes of an address with the name of an entrypoint behind them. -/
lemma addressText?_toBytes_append (h : ¬ type.applies (.type .keyHash)) (a : Address)
    (entrypoint : String) :
    addressText? digest type (a.toBytes ++ Utf8.encode entrypoint) =
      some (a.textAtWith digest entrypoint) := by
  have hcut : Bytes.cut? addressLength (a.toBytes ++ Utf8.encode entrypoint) =
      some (a.toBytes, Utf8.encode entrypoint) :=
    Bytes.cut?_eq_some_iff.2 ⟨rfl, a.length_toBytes⟩
  have hempty : (Utf8.encode entrypoint).isEmpty ↔ entrypoint = "" := by
    rw [List.isEmpty_iff, Utf8.encode_eq_nil_iff]
  rw [addressText?, if_neg h, hcut]
  simp only [a.ofBytes_toBytes, hempty, Utf8.decode?_encode, Option.map_some, Address.textAtWith]
  split <;> rfl

/-- The hash of a key is the form of an account without its first byte. -/
lemma addressText?_keyHash {a : Address} {scheme : Scheme} (h : type.applies (.type .keyHash))
    (hcls : a.cls = .implicit scheme) :
    addressText? digest type (scheme.tag :: a.hash) = some (a.textAtWith digest "") := by
  have hform : a.toBytes = 0x00 :: scheme.tag :: a.hash := by rw [Address.toBytes, hcls]
  have hread : Address.ofKeyHashBytes (scheme.tag :: a.hash) = .ok a :=
    Address.ofBytes_eq_ok_iff.2 hform
  rw [addressText?, if_pos h, hread]
  rfl

/-! ### Keys -/

lemma shows_key_bytes (h : type.applies (.type .key)) (k : Key) (u : Bool) :
    ShowsWith digest (keyWith? digest) (k.toTextWith digest) k
      ⟨type, literal (.bytes k.toBytes) u⟩ := by
  rw [applies_iff] at h
  have hread : Key.ofBytes k.toBytes = .ok k := Key.ofBytes_eq_ok_iff.2 rfl
  refine ⟨by simp only [layout, h], by simp only [side?, h], ?_, ?_⟩
  · simp only [renderLeafWith, h, bytes?, Option.bind_some, hread]
    rfl
  · simp only [keyWith?, string?, bytes?, Option.bind_some, hread]
    rfl

lemma shows_key_text (hdigest : ∀ b, (digest b).length = 32) (h : type.applies (.type .key))
    (k : Key) (u : Bool) :
    ShowsWith digest (keyWith? digest) (k.toTextWith digest) k
      ⟨type, literal (.string (k.toTextWith digest)) u⟩ := by
  rw [applies_iff] at h
  have hread : Key.ofTextWith digest (k.toTextWith digest) = .ok k :=
    (Key.ofTextWith_eq_ok_iff hdigest).2 rfl
  refine ⟨by simp only [layout, h], by simp only [side?, h], ?_, ?_⟩
  · simp only [renderLeafWith, h]
    rfl
  · simp only [keyWith?, string?, hread]
    rfl

/-! ### Both spellings -/

section

variable (hdigest : ∀ b, (digest b).length = 32)
include hdigest

lemma shows_address (h : type.applies (.type .address) ∨ type.applies (.type .contract))
    (a : Address) (entrypoint : String) (u u' : Bool) :
    ShowsWith digest (addressWith? digest) (a.textAtWith digest entrypoint) a
        ⟨type, literal (.bytes (a.toBytes ++ Utf8.encode entrypoint)) u⟩ ∧
      ShowsWith digest (addressWith? digest) (a.textAtWith digest entrypoint) a
        ⟨type, literal (.string (a.textAtWith digest entrypoint)) u'⟩ := by
  have haddress : IsAddressType type := h.imp_right Or.inl
  have hno : ¬ type.applies (.type .keyHash) := by
    rw [applies_iff]
    rcases h with h | h <;> rw [applies_iff] at h <;> rw [h] <;> decide
  exact ⟨haddress.shows_bytes hdigest (addressText?_toBytes_append hno a entrypoint) u,
    haddress.shows_text hdigest a entrypoint u'⟩

lemma shows_keyHash (h : type.applies (.type .keyHash)) {a : Address} {scheme : Scheme}
    (hcls : a.cls = .implicit scheme) (u u' : Bool) :
    ShowsWith digest (addressWith? digest) (a.toTextWith digest) a
        ⟨type, literal (.bytes (scheme.tag :: a.hash)) u⟩ ∧
      ShowsWith digest (addressWith? digest) (a.toTextWith digest) a
        ⟨type, literal (.string (a.toTextWith digest)) u'⟩ := by
  have haddress : IsAddressType type := Or.inr (Or.inr h)
  have hbytes := haddress.shows_bytes hdigest (addressText?_keyHash h hcls) u
  have htext := haddress.shows_text hdigest a "" u'
  rw [a.textAtWith_empty] at hbytes htext
  exact ⟨hbytes, htext⟩

end

/-- The bytes and the text of an address are shown and read alike.  Under a type of addresses or
contracts, the bytes with the name of an entrypoint behind them and the text with a percent sign and
the name behind it are shown as this text, and the address is read from both; so are the hash of a
key and the text of its account under the type of such hashes, and the bytes and the text of a key
under the type of keys.  This would be so with any digest of 32 bytes in the place of the one that
the checksums are taken from. -/
theorem shows_bytes_and_text :
    (∀ (type : Expr) (a : Address) (entrypoint : String) (u u' : Bool),
      type.applies (.type .address) ∨ type.applies (.type .contract) →
        Shows address? (a.textAt entrypoint) a
          ⟨type, literal (.bytes (a.toBytes ++ Utf8.encode entrypoint)) u⟩ ∧
        Shows address? (a.textAt entrypoint) a
          ⟨type, literal (.string (a.textAt entrypoint)) u'⟩) ∧
      (∀ (type : Expr) (a : Address) (scheme : Scheme) (u u' : Bool),
        type.applies (.type .keyHash) → a.cls = .implicit scheme →
          Shows address? a.toText a ⟨type, literal (.bytes (scheme.tag :: a.hash)) u⟩ ∧
          Shows address? a.toText a ⟨type, literal (.string a.toText) u'⟩) ∧
      (∀ (type : Expr) (k : Key) (u u' : Bool), type.applies (.type .key) →
        Shows key? k.toText k ⟨type, literal (.bytes k.toBytes) u⟩ ∧
        Shows key? k.toText k ⟨type, literal (.string k.toText) u'⟩) ∧
      ∀ digest : Bytes → Bytes, (∀ b, (digest b).length = 32) →
        (∀ (type : Expr) (a : Address) (entrypoint : String) (u u' : Bool),
          type.applies (.type .address) ∨ type.applies (.type .contract) →
            ShowsWith digest (addressWith? digest) (a.textAtWith digest entrypoint) a
              ⟨type, literal (.bytes (a.toBytes ++ Utf8.encode entrypoint)) u⟩ ∧
            ShowsWith digest (addressWith? digest) (a.textAtWith digest entrypoint) a
              ⟨type, literal (.string (a.textAtWith digest entrypoint)) u'⟩) ∧
          (∀ (type : Expr) (a : Address) (scheme : Scheme) (u u' : Bool),
            type.applies (.type .keyHash) → a.cls = .implicit scheme →
              ShowsWith digest (addressWith? digest) (a.toTextWith digest) a
                ⟨type, literal (.bytes (scheme.tag :: a.hash)) u⟩ ∧
              ShowsWith digest (addressWith? digest) (a.toTextWith digest) a
                ⟨type, literal (.string (a.toTextWith digest)) u'⟩) ∧
          ∀ (type : Expr) (k : Key) (u u' : Bool), type.applies (.type .key) →
            ShowsWith digest (keyWith? digest) (k.toTextWith digest) k
              ⟨type, literal (.bytes k.toBytes) u⟩ ∧
            ShowsWith digest (keyWith? digest) (k.toTextWith digest) k
              ⟨type, literal (.string (k.toTextWith digest)) u'⟩ := by
  have hsha := Sha256.length_digest
  refine ⟨fun type a entrypoint u u' htype => ?_, fun type a scheme u u' htype hcls => ?_,
    fun type k u u' htype => ?_, fun digest hdigest =>
      ⟨fun type a entrypoint u u' htype => shows_address hdigest htype a entrypoint u u',
        fun type a scheme u u' htype hcls => shows_keyHash hdigest htype hcls u u',
        fun type k u u' htype => ⟨shows_key_bytes htype k u, shows_key_text hdigest htype k u'⟩⟩⟩
  · exact (shows_address hsha htype a entrypoint u u').imp ShowsWith.shows ShowsWith.shows
  · exact (shows_keyHash hsha htype hcls u u').imp ShowsWith.shows ShowsWith.shows
  · exact ⟨(shows_key_bytes htype k u).shows, (shows_key_text hsha htype k u').shows⟩

/-- A contract with the name of an entrypoint that has a percent sign in it, the hash of a key and a
key; and the contract with a digest that gives zero bytes only. -/
theorem shows_bytes_and_text_percent :
    let hash : Bytes := [0x82, 0xee, 0xa6, 0x40, 0x43, 0x1c, 0x73, 0x17, 0x57, 0xa8, 0xb7, 0xee, 0x22,
      0x6d, 0xa7, 0xa7, 0x84, 0x79, 0x7d, 0xde]
    let a : Address := ⟨.contract, hash, rfl⟩
    let account : Address := ⟨.implicit .p256, hash, rfl⟩
    let k : Key := ⟨.ed25519, List.replicate 32 7, rfl⟩
    let text := "KT1LX5JMaa1NT9n9WsgVSyeGkoYqbgj7yZx5%pay%1"
    let zeros : Bytes → Bytes := fun _ => List.replicate 32 0
    (type1 .contract (type0 .unit)).applies (.type .contract) ∧
      Shows address? text a ⟨type1 .contract (type0 .unit),
        bytes (0x01 :: (hash ++ 0x00 :: [112, 97, 121, 37, 49]))⟩ ∧
      Shows address? text a ⟨type1 .contract (type0 .unit), string text⟩ ∧
      account.cls = .implicit .p256 ∧
      Shows address? account.toText account ⟨type0 .keyHash, bytes (0x02 :: hash)⟩ ∧
      Shows key? k.toText k ⟨type0 .key, bytes (0x00 :: List.replicate 32 7)⟩ ∧
      (∀ b, (zeros b).length = 32) ∧
      ShowsWith zeros (addressWith? zeros) (a.textAtWith zeros "pay%1") a
        ⟨type1 .contract (type0 .unit),
          bytes (0x01 :: (hash ++ 0x00 :: [112, 97, 121, 37, 49]))⟩ := by
  intro hash a account k text zeros
  obtain ⟨haddress, hhash, hkey, hwith⟩ := shows_bytes_and_text
  have htext : a.textAt "pay%1" = text := by decide +kernel
  have hbytes : a.toBytes ++ Utf8.encode "pay%1" =
      0x01 :: (hash ++ 0x00 :: [112, 97, 121, 37, 49]) := by decide +kernel
  have hzeros : ∀ b, (zeros b).length = 32 := fun b => List.length_replicate
  obtain ⟨hb, hs⟩ := haddress (type1 .contract (type0 .unit)) a "pay%1" false false (Or.inr rfl)
  rw [htext, hbytes] at hb
  rw [htext] at hs
  obtain ⟨hother, -⟩ := (hwith zeros hzeros).1 (type1 .contract (type0 .unit)) a "pay%1" false false
    (Or.inr rfl)
  rw [hbytes] at hother
  exact ⟨rfl, hb, hs, rfl, (hhash (type0 .keyHash) account .p256 false false rfl rfl).1,
    (hkey (type0 .key) k false false rfl).1, hzeros, hother⟩

end TypedValue

end Michelson
