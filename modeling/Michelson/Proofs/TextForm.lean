/-
# Texts of addresses, keys and signatures

The text of an address, a key or a signature is base58-check text, and a reader tells the class
from the first characters.  But what is written are bytes: a class puts some bytes in front of the
payload, and nothing says that the text then starts with the characters of the class.  That it does
is a fact about numbers (`Leads`).  All payloads of one length behind the same bytes are numbers of
an interval, and this interval lies in the numbers with given leading digits.

So the reader looks for the class that the writer had, and a text that is read is the text of what
is read: the main statement is `ofText_eq_ok_iff_toText`.  It holds whatever the checksums are taken
from, as long as they have four bytes: the interval has room for any of them.
-/
import Michelson.Address
import Michelson.Key
import Michelson.Proofs.Base58.Checked
import Michelson.Signature

namespace Michelson

namespace Base58

variable {c head payload rest : Bytes} {text : String} {n k length : Nat}

/-! ### Leading digits -/

/-- What is left when some digits are cut off are the leading digits. -/
lemma exists_values_append (h : n / 58 ^ k ≠ 0) : ∃ tail, values n = values (n / 58 ^ k) ++ tail := by
  induction k generalizing n with
  | zero => exact ⟨[], by rw [pow_zero, Nat.div_one, List.append_nil]⟩
  | succ k ih =>
    have hdiv : n / 58 ^ (k + 1) = n / 58 / 58 ^ k := by rw [pow_succ', Nat.div_div_eq_div_mul]
    have hn : n ≠ 0 := by
      rintro rfl
      exact h (Nat.zero_div _)
    rw [hdiv] at h ⊢
    obtain ⟨tail, htail⟩ := ih h
    exact ⟨tail ++ [n % 58], by rw [values_of_ne_zero hn, htail, List.append_assoc]⟩

/-- A byte string without a leading zero is written by the digits of its number. -/
lemma toList_encode (hc : c.head? ≠ some 0) :
    (encode c).toList = (values (Bytes.toNat c)).map digit := by
  have hnone : ∀ z ∈ ([] : Bytes), z = 0 := nofun
  have hzeros : c.takeWhile (· == 0) = [] := takeWhile_append_eq hnone hc
  rw [encode, hzeros, digits_eq, String.toList_ofList, List.append_nil]
  rfl

/-- The number that the characters of a text stand for. -/
def textValue (text : String) : Nat := ofValues 0 (text.toList.map fun x => alphabet.idxOf x)

/-- Behind `head`, all numbers of `length` bytes have the digits of `text` in front of `below`
other digits. -/
@[mk_iff]
structure Leads (head : Bytes) (length : Nat) (text : String) (below : Nat) : Prop where
  head_ne : head.head?.getD 0 ≠ 0
  value_ne : textValue text ≠ 0
  digits : (values (textValue text)).map digit = text.toList
  least : textValue text * 58 ^ below ≤ Bytes.toNat head * 256 ^ length
  greatest : (Bytes.toNat head + 1) * 256 ^ length ≤ (textValue text + 1) * 58 ^ below

instance (head : Bytes) (length : Nat) (text : String) (k : Nat) :
    Decidable (Leads head length text k) :=
  decidable_of_iff' _ (leads_iff head length text k)

/-- The text of such bytes starts with these digits. -/
lemma Leads.isPrefix (h : Leads head length text k) (hrest : rest.length = length) :
    text.toList <+: (encode (head ++ rest)).toList := by
  obtain ⟨x, tail, rfl, hx⟩ : ∃ x tail, head = x :: tail ∧ x ≠ 0 := by
    cases head with
    | nil => exact absurd rfl h.head_ne
    | cons x tail => exact ⟨x, tail, rfl, h.head_ne⟩
  have hzero : ((x :: tail) ++ rest).head? ≠ some 0 := fun heq => hx (Option.some.inj heq)
  have hquotient : Bytes.toNat ((x :: tail) ++ rest) / 58 ^ k = textValue text := by
    have hlt := Bytes.toNat_lt rest
    rw [Bytes.toNat_append, hrest]
    rw [hrest] at hlt
    refine Nat.div_eq_of_lt_le (h.least.trans (Nat.le_add_right _ _)) ?_
    refine lt_of_lt_of_le ?_ h.greatest
    rw [Nat.add_mul, Nat.one_mul]
    exact Nat.add_lt_add_left hlt _
  obtain ⟨tail', hvalues⟩ := exists_values_append (hquotient ▸ h.value_ne)
  rw [toList_encode hzero, hvalues, hquotient, List.map_append, h.digits]
  exact List.prefix_append _ _

end Base58

/-! ### Families of classes -/

/-- Classes that are told apart by the first characters of a text.  The texts of the payloads of a
class start with its characters, and these are not the start of those of another class. -/
structure TextFamily (κ : Type) where
  /-- The classes in the order in which they are tried. -/
  all : List κ
  /-- The bytes in front of a payload. -/
  head : κ → Bytes
  /-- The number of bytes of a payload. -/
  length : κ → Nat
  /-- The first characters of a text. -/
  textHead : κ → String
  /-- The number of digits behind the first characters. -/
  below : κ → Nat
  mem_all : ∀ c, c ∈ all
  prefixFree : ∀ c ∈ all, ∀ d ∈ all, (textHead c).toList <+: (textHead d).toList → c = d
  leads : ∀ c ∈ all,
    Base58.Leads (head c) (length c + Base58.checksumLength) (textHead c) (below c)
  fits : ∀ c ∈ all, (head c).length + length c + Base58.checksumLength ≤ Base58.maxBytes

namespace TextFamily

variable {κ : Type} (F : TextFamily κ) {c : κ} {payload : Bytes} {text : String}

/-- The class that a text is taken for. -/
def classOf? (text : String) : Option κ :=
  F.all.find? fun c => (F.textHead c).toList.isPrefixOf text.toList

/-- No other class than one whose characters the text starts with is found. -/
lemma classOf?_eq_some (h : (F.textHead c).toList <+: text.toList) : F.classOf? text = some c := by
  cases hfind : F.classOf? text with
  | none =>
    have hnot := List.find?_eq_none.1 hfind c (F.mem_all c)
    exact absurd (List.isPrefixOf_iff_prefix.2 h) hnot
  | some d =>
    have hfits : (F.textHead d).toList.isPrefixOf text.toList :=
      List.find?_some (p := fun c => (F.textHead c).toList.isPrefixOf text.toList) hfind
    have hd := List.isPrefixOf_iff_prefix.1 hfits
    -- of two starts of the text one is the start of the other
    rcases List.prefix_or_prefix_of_prefix hd h with hprefix | hprefix
    · rw [F.prefixFree d (F.mem_all d) c (F.mem_all c) hprefix]
    · rw [F.prefixFree c (F.mem_all c) d (F.mem_all d) hprefix]

/-- The reader of a family: it looks for the class, reads a payload of it and makes the two into
one. -/
def read {α : Type} (digest : Bytes → Bytes) (unknown : Error)
    (make : κ → Bytes → Except Error α) (text : String) : Except Error α :=
  match F.classOf? text with
  | none => .error unknown
  | some c =>
    match Base58.decodeWith digest (F.head c) text with
    | .error fault => .error (.base58 fault)
    | .ok payload => make c payload

section

variable {digest : Bytes → Bytes} (hdigest : ∀ b, (digest b).length = 32)
include hdigest

/-- The text of a payload starts with the characters of its class. -/
lemma isPrefix_encodeWith (h : payload.length = F.length c) :
    (F.textHead c).toList <+: (Base58.encodeWith digest (F.head c) payload).toList := by
  rw [Base58.encodeWith, List.append_assoc]
  refine (F.leads c (F.mem_all c)).isPrefix ?_
  rw [List.length_append, h, Base58.length_checksumWith hdigest]

/-- A text is taken for a class and read as a payload exactly if it is the text of this payload of
this class. -/
lemma classOf?_and_decodeWith_iff (h : payload.length = F.length c) :
    (F.classOf? text = some c ∧ Base58.decodeWith digest (F.head c) text = .ok payload) ↔
      Base58.encodeWith digest (F.head c) payload = text := by
  constructor
  · rintro ⟨-, hread⟩
    exact Base58.encodeWith_of_decodeWith hdigest hread
  · rintro rfl
    refine ⟨F.classOf?_eq_some (F.isPrefix_encodeWith hdigest h), ?_⟩
    refine Base58.decodeWith_encodeWith hdigest ?_
    rw [h]
    exact F.fits c (F.mem_all c)

lemma read_eq_ok_iff {α : Type} {a : α} {unknown : Error} {make : κ → Bytes → Except Error α}
    (hmake : ∀ d b, make d b = .ok a ↔ d = c ∧ b = payload) (h : payload.length = F.length c) :
    F.read digest unknown make text = .ok a ↔
      Base58.encodeWith digest (F.head c) payload = text := by
  rw [← F.classOf?_and_decodeWith_iff hdigest h, read]
  constructor
  · intro hread
    split at hread
    case h_1 => cases hread
    case h_2 d hclass =>
      split at hread
      case h_1 => cases hread
      case h_2 b hpayload =>
        obtain ⟨rfl, rfl⟩ := (hmake d b).1 hread
        exact ⟨hclass, hpayload⟩
  · rintro ⟨hclass, hpayload⟩
    rw [hclass]
    dsimp only
    rw [hpayload]
    exact (hmake c payload).2 ⟨rfl, rfl⟩

end

end TextFamily

lemma AddressClass.mem_all (c : AddressClass) : c ∈ all := by
  rcases c with (_ | _ | _ | _) | _ | _ | _ <;> decide

lemma Scheme.mem_all (scheme : Scheme) : scheme ∈ all := by
  cases scheme <;> decide

lemma SignatureClass.mem_all (c : SignatureClass) : c ∈ all := by
  rcases c with (_ | _ | _ | _) | _ <;> decide

namespace Address

/-- Behind the bytes of a class, every hash and checksum have the digits of its characters in front.
-/
lemma leads : ∀ c ∈ AddressClass.all,
    Base58.Leads c.head (hashLength + Base58.checksumLength) c.textHead 33 := by
  decide

lemma prefixFree : ∀ c ∈ AddressClass.all, ∀ d ∈ AddressClass.all,
    c.textHead.toList <+: d.textHead.toList → c = d := by
  decide

lemma fits : ∀ c ∈ AddressClass.all,
    c.head.length + hashLength + Base58.checksumLength ≤ Base58.maxBytes := by
  decide

/-- The classes of addresses by their texts. -/
def textFamily : TextFamily AddressClass where
  all := AddressClass.all
  head := AddressClass.head
  length _ := hashLength
  textHead := AddressClass.textHead
  below _ := 33
  mem_all := AddressClass.mem_all
  prefixFree := prefixFree
  leads := leads
  fits := fits

lemma ofHash?_eq_some_iff {cls : AddressClass} {hash : Bytes} {a : Address} :
    ofHash? cls hash = some a ↔ cls = a.cls ∧ hash = a.hash := by
  obtain ⟨cls', hash', hlength⟩ := a
  rw [ofHash?]
  split
  case isTrue h => simp
  case isFalse h =>
    refine iff_of_false nofun ?_
    rintro ⟨-, rfl⟩
    exact h hlength

lemma ofTextWith_eq_read (digest : Bytes → Bytes) (text : String) :
    ofTextWith digest text = textFamily.read digest (.base58 (.unknownHead .address text)) (fun cls hash =>
      match ofHash? cls hash with
      | some a => .ok a
      | none => .error (.invalidLength (.addressText text))) text := by
  have hclass : AddressClass.all.find? (fun c => c.textHead.toList.isPrefixOf text.toList) =
      textFamily.classOf? text := rfl
  rw [ofTextWith, hclass, TextFamily.read]
  cases textFamily.classOf? text with
  | none => rfl
  | some c =>
    have hhead : textFamily.head c = c.head := rfl
    cases hread : Base58.decodeWith digest c.head text with
    | error fault => simp only [hhead, hread]
    | ok payload => cases hmake : ofHash? c payload <;> simp only [hhead, hread, hmake]

lemma ofTextWith_eq_ok_iff {digest : Bytes → Bytes} (hdigest : ∀ b, (digest b).length = 32)
    {text : String} {a : Address} : ofTextWith digest text = .ok a ↔ a.toTextWith digest = text := by
  rw [ofTextWith_eq_read]
  refine textFamily.read_eq_ok_iff hdigest (fun cls hash => ?_) a.length_hash
  rw [← ofHash?_eq_some_iff]
  cases ofHash? cls hash <;> simp

lemma textHead_ne_nil (cls : AddressClass) : cls.textHead.toList ≠ [] := by
  cases cls with
  | implicit scheme => cases scheme <;> decide
  | contract => decide
  | txRollup => decide
  | smartRollup => decide

/-- The text of an address starts with the characters of its class. -/
lemma toText_ne_empty (a : Address) : a.toText ≠ "" := by
  intro h
  have hprefix : a.cls.textHead.toList <+: a.toText.toList :=
    textFamily.isPrefix_encodeWith Sha256.length_digest a.length_hash
  rw [h] at hprefix
  exact textHead_ne_nil a.cls (List.prefix_nil.1 hprefix)

end Address

namespace Key

/-- The number of digits behind the first characters of the text of a key. -/
def below : Scheme → Nat
  | .ed25519 => 50
  | .secp256k1 => 51
  | .p256 => 51
  | .bls12_381 => 72

/-- Behind the bytes of a scheme, every key and checksum have the digits of its characters in front.
-/
lemma leads : ∀ s ∈ Scheme.all,
    Base58.Leads s.keyHead (s.keyLength + Base58.checksumLength) s.keyTextHead (below s) := by
  decide

lemma prefixFree : ∀ s ∈ Scheme.all, ∀ t ∈ Scheme.all,
    s.keyTextHead.toList <+: t.keyTextHead.toList → s = t := by
  decide

lemma fits : ∀ s ∈ Scheme.all,
    s.keyHead.length + s.keyLength + Base58.checksumLength ≤ Base58.maxBytes := by
  decide

/-- The schemes of keys by their texts. -/
def textFamily : TextFamily Scheme where
  all := Scheme.all
  head := Scheme.keyHead
  length := Scheme.keyLength
  textHead := Scheme.keyTextHead
  below := below
  mem_all := Scheme.mem_all
  prefixFree := prefixFree
  leads := leads
  fits := fits

lemma new_eq_ok_iff {scheme : Scheme} {data : Bytes} {k : Key} :
    new scheme data = .ok k ↔ scheme = k.scheme ∧ data = k.data := by
  obtain ⟨scheme', data', hlength⟩ := k
  rw [new]
  split
  case isTrue h => simp
  case isFalse h =>
    refine iff_of_false nofun ?_
    rintro ⟨rfl, rfl⟩
    exact h hlength

lemma ofTextWith_eq_read (digest : Bytes → Bytes) (text : String) :
    ofTextWith digest text = textFamily.read digest (.base58 (.unknownHead .key text)) new text := by
  have hclass : Scheme.all.find? (fun c => c.keyTextHead.toList.isPrefixOf text.toList) =
      textFamily.classOf? text := rfl
  rw [ofTextWith, hclass, TextFamily.read]
  cases textFamily.classOf? text with
  | none => rfl
  | some c =>
    have hhead : textFamily.head c = c.keyHead := rfl
    cases hread : Base58.decodeWith digest c.keyHead text <;> simp only [hhead, hread]

lemma ofTextWith_eq_ok_iff {digest : Bytes → Bytes} (hdigest : ∀ b, (digest b).length = 32)
    {text : String} {k : Key} : ofTextWith digest text = .ok k ↔ k.toTextWith digest = text := by
  rw [ofTextWith_eq_read]
  exact textFamily.read_eq_ok_iff hdigest (fun _ _ => new_eq_ok_iff) k.length_data

end Key

namespace Signature

/-- The number of digits behind the first characters of the text of a signature. -/
def below : SignatureClass → Nat
  | .of .ed25519 => 94
  | .of .bls12_381 => 137
  | _ => 93

/-- Behind the bytes of a class, every signature and checksum have the digits of its characters in
front. -/
lemma leads : ∀ c ∈ SignatureClass.all,
    Base58.Leads c.head (c.length + Base58.checksumLength) c.textHead (below c) := by
  decide

lemma prefixFree : ∀ c ∈ SignatureClass.all, ∀ d ∈ SignatureClass.all,
    c.textHead.toList <+: d.textHead.toList → c = d := by
  decide

lemma fits : ∀ c ∈ SignatureClass.all,
    c.head.length + c.length + Base58.checksumLength ≤ Base58.maxBytes := by
  decide

/-- The classes of signatures by their texts. -/
def textFamily : TextFamily SignatureClass where
  all := SignatureClass.all
  head := SignatureClass.head
  length := SignatureClass.length
  textHead := SignatureClass.textHead
  below := below
  mem_all := SignatureClass.mem_all
  prefixFree := prefixFree
  leads := leads
  fits := fits

lemma ofData?_eq_some_iff {cls : SignatureClass} {data : Bytes} {s : Signature} :
    ofData? cls data = some s ↔ cls = s.cls ∧ data = s.data := by
  obtain ⟨cls', data', hlength⟩ := s
  rw [ofData?]
  split
  case isTrue h => simp
  case isFalse h =>
    refine iff_of_false nofun ?_
    rintro ⟨rfl, rfl⟩
    exact h hlength

lemma ofTextWith_eq_read (digest : Bytes → Bytes) (text : String) :
    ofTextWith digest text = textFamily.read digest (.base58 (.unknownHead .signature text)) (fun cls data =>
      match ofData? cls data with
      | some s => .ok s
      | none => .error (.invalidLength (.signatureText text))) text := by
  have hclass : SignatureClass.all.find? (fun c => c.textHead.toList.isPrefixOf text.toList) =
      textFamily.classOf? text := rfl
  rw [ofTextWith, hclass, TextFamily.read]
  cases textFamily.classOf? text with
  | none => rfl
  | some c =>
    have hhead : textFamily.head c = c.head := rfl
    cases hread : Base58.decodeWith digest c.head text with
    | error fault => simp only [hhead, hread]
    | ok payload => cases hmake : ofData? c payload <;> simp only [hhead, hread, hmake]

lemma ofTextWith_eq_ok_iff {digest : Bytes → Bytes} (hdigest : ∀ b, (digest b).length = 32)
    {text : String} {s : Signature} :
    ofTextWith digest text = .ok s ↔ s.toTextWith digest = text := by
  rw [ofTextWith_eq_read]
  refine textFamily.read_eq_ok_iff hdigest (fun cls data => ?_) s.length_data
  rw [← ofData?_eq_some_iff]
  cases ofData? cls data <;> simp

end Signature

/-- Each address, key and signature has one text: it is read from its text, and from no other.  This
would be so with any digest of 32 bytes in the place of the one that the checksums are taken
from. -/
theorem ofText_eq_ok_iff_toText :
    (∀ text a, Address.ofText text = .ok a ↔ a.toText = text) ∧
      (∀ text k, Key.ofText text = .ok k ↔ k.toText = text) ∧
      (∀ text s, Signature.ofText text = .ok s ↔ s.toText = text) ∧
      ∀ digest : Bytes → Bytes, (∀ b, (digest b).length = 32) →
        (∀ text a, Address.ofTextWith digest text = .ok a ↔ a.toTextWith digest = text) ∧
          (∀ text k, Key.ofTextWith digest text = .ok k ↔ k.toTextWith digest = text) ∧
          ∀ text s, Signature.ofTextWith digest text = .ok s ↔ s.toTextWith digest = text :=
  ⟨fun _ _ => Address.ofTextWith_eq_ok_iff Sha256.length_digest,
    fun _ _ => Key.ofTextWith_eq_ok_iff Sha256.length_digest,
    fun _ _ => Signature.ofTextWith_eq_ok_iff Sha256.length_digest,
    fun _ hdigest => ⟨fun _ _ => Address.ofTextWith_eq_ok_iff hdigest,
      fun _ _ => Key.ofTextWith_eq_ok_iff hdigest,
      fun _ _ => Signature.ofTextWith_eq_ok_iff hdigest⟩⟩

/-- The text of an account, with the digest that the checksums are taken from and with one that gives
zero bytes only. -/
theorem ofText_eq_ok_iff_toText_account :
    let hash : Bytes := [0x82, 0xee, 0xa6, 0x40, 0x43, 0x1c, 0x73, 0x17, 0x57, 0xa8, 0xb7, 0xee, 0x22,
      0x6d, 0xa7, 0xa7, 0x84, 0x79, 0x7d, 0xde]
    let a : Address := ⟨.implicit .ed25519, hash, rfl⟩
    let zeros : Bytes → Bytes := fun _ => List.replicate 32 0
    (∀ b, (zeros b).length = 32) ∧
      Address.ofText "tz1XaLRi6i8qNDa4KyNjQcxFvFDDs8xi7nr1" = .ok a ∧
      Address.ofTextWith zeros (a.toTextWith zeros) = .ok a ∧ a.toTextWith zeros ≠ a.toText := by
  intro hash a zeros
  obtain ⟨haddress, -, -, hwith⟩ := ofText_eq_ok_iff_toText
  have hzeros : ∀ b, (zeros b).length = 32 := fun b => List.length_replicate
  have htext : a.toText = "tz1XaLRi6i8qNDa4KyNjQcxFvFDDs8xi7nr1" := by decide +kernel
  have hother : a.toTextWith zeros ≠ a.toText := by
    rw [htext]
    decide +kernel
  exact ⟨hzeros, (haddress _ a).2 htext, ((hwith zeros hzeros).1 _ a).2 rfl, hother⟩

end Michelson
