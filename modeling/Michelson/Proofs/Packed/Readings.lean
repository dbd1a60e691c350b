/-
# The three readings of packed bytes

Bytes carry no type, so a byte string is opened by its looks: as a tree behind the tag byte, as
text, or as an address.  The first byte keeps the three apart (`opensWith_of_isFormOf`): the tag
byte is 5, text starts at the space or behind it, and an address starts with a byte up to 3.  So no
byte string has the looks of two forms (`eq_of_isFormOf`), and the form that it has decides
(`unpackBytes_of_isFormOf`), in whatever order they are tried.

Text and addresses are always read.  Only a tree behind the tag byte may fail to be read, and then
nothing else is tried; the test for packed bytes reads this tree as well.

The main statement is `isOpenable_iff_unpack`.
-/
import Michelson.Packed
import Michelson.Proofs.BinaryForm
import Michelson.Proofs.Except

namespace Michelson

/-- The ways to read a byte string as packed. -/
inductive PackedForm where
  /-- A tree behind the tag byte. -/
  | tree
  /-- Printable ASCII text. -/
  | text
  /-- The binary form of an address. -/
  | address
deriving DecidableEq

namespace PackedForm

/-- Whether a byte string has the looks of a form. -/
def isFormOf : PackedForm → Bytes → Bool
  | tree, b => b.head? == some packedTag && 1 < b.length
  | text, b => b.isAscii
  | address, b => Address.isBinaryForm b

/-- What a byte string is read as in a form, a tree being of height at most `limit`. -/
def read (limit : Nat) : PackedForm → Bytes → Except Error Expr
  | tree, b => Expr.decode limit b.tail
  | text, b => .ok (Expr.string (Utf8.ofAscii b))
  | address, b => (Address.ofBytes b).map fun a => Expr.string a.toText

/-- Tries some forms in turn.  The first one whose looks a byte string has is the one to read it in,
even if this fails. -/
def readFirst (limit : Nat) (order : List PackedForm) (b : Bytes) : Except Error Expr :=
  match order.find? fun form => form.isFormOf b with
  | some form => form.read limit b
  | none => .error (.unpack .notPacked)

variable {form form' : PackedForm} {b : Bytes} {limit : Nat}

/-! ### The first byte -/

/-- The bytes that a byte string of a form may start with. -/
def OpensWith (x : UInt8) : PackedForm → Prop
  | tree => x.toNat = 5
  | text => 32 ≤ x.toNat
  | address => x.toNat ≤ 3

lemma eq_of_opensWith {x : UInt8} (h : form.OpensWith x) (h' : form'.OpensWith x) :
    form = form' := by
  cases form <;> cases form' <;> first | rfl | (simp only [OpensWith] at h h'; omega)

lemma exists_lead_of_toBytes (a : Address) :
    ∃ lead rest, a.toBytes = lead :: rest ∧ lead.toNat ≤ 3 := by
  obtain ⟨cls, hash, hlength⟩ := a
  cases cls <;> exact ⟨_, _, rfl, by decide⟩

/-- The first byte of a byte string tells its form. -/
lemma opensWith_of_isFormOf (h : form.isFormOf b) : ∃ x rest, b = x :: rest ∧ form.OpensWith x := by
  cases form with
  | tree =>
    cases b with
    | nil => simp [isFormOf] at h
    | cons x rest =>
      have hx : x = packedTag := by simpa using (Bool.and_eq_true_iff.1 h).1
      exact ⟨x, rest, rfl, by rw [hx]; rfl⟩
  | text =>
    cases b with
    | nil => simp [isFormOf, Bytes.isAscii] at h
    | cons x rest =>
      have hx : 0x20 ≤ x := by
        simp [isFormOf, Bytes.isAscii] at h
        exact h.1.1
      exact ⟨x, rest, rfl, UInt8.le_iff_toNat_le.1 hx⟩
  | address =>
    obtain ⟨a, ha⟩ := Except.isOk_iff.1 h
    rw [← Address.toBytes_of_ofBytes ha]
    exact exists_lead_of_toBytes a

/-- No byte string has the looks of two forms. -/
theorem eq_of_isFormOf (h : form.isFormOf b) (h' : form'.isFormOf b) : form = form' := by
  obtain ⟨x, rest, rfl, hx⟩ := opensWith_of_isFormOf h
  obtain ⟨x', rest', heq, hx'⟩ := opensWith_of_isFormOf h'
  obtain ⟨rfl, rfl⟩ := List.cons.inj heq
  exact eq_of_opensWith hx hx'

end PackedForm

namespace Expr

open PackedForm

variable {form : PackedForm} {order : List PackedForm} {b : Bytes} {limit : Nat} {u : Bool}

/-! ### Reading -/

lemma unpackBytes_of_tree (h : tree.isFormOf b) : unpackBytes limit b = decode limit b.tail := by
  match b with
  | [] => simp [isFormOf] at h
  | [x] => simp [isFormOf] at h
  | x :: y :: rest =>
    have hx : x = packedTag := by simpa [isFormOf] using h
    exact if_pos hx

lemma unpackBytes_of_not_tree (h : ¬ tree.isFormOf b) :
    unpackBytes limit b = unpackBytes.unpackUntagged b := by
  match b with
  | [] => rfl
  | [x] => rfl
  | x :: y :: rest =>
    have hx : x ≠ packedTag := by simpa [isFormOf] using h
    exact if_neg hx

/-- Packed bytes are read in the form that they have. -/
lemma unpackBytes_of_isFormOf (h : form.isFormOf b) : unpackBytes limit b = form.read limit b := by
  -- the bytes have the looks of no other form, so those that are tried before are passed over
  have hother : ∀ form', form' ≠ form → ¬ form'.isFormOf b :=
    fun form' hne h' => hne (eq_of_isFormOf h' h)
  cases form with
  | tree => exact unpackBytes_of_tree h
  | text =>
    rw [unpackBytes_of_not_tree (hother tree (by decide)), unpackBytes.unpackUntagged]
    exact if_pos h
  | address =>
    obtain ⟨a, ha⟩ := Except.isOk_iff.1 h
    have htext : ¬ b.isAscii := hother text (by decide)
    rw [unpackBytes_of_not_tree (hother tree (by decide)), unpackBytes.unpackUntagged,
      if_neg htext, PackedForm.read, ha]
    rfl

lemma unpackBytes_of_none (h : ∀ form : PackedForm, ¬ form.isFormOf b) :
    unpackBytes limit b = .error (.unpack .notPacked) := by
  have htext : ¬ b.isAscii := h text
  rw [unpackBytes_of_not_tree (h tree), unpackBytes.unpackUntagged, if_neg htext]
  cases ha : Address.ofBytes b with
  | ok a => exact absurd (Except.isOk_iff.2 ⟨a, ha⟩) (h address)
  | error e => rfl

/-- The order in which the forms are tried does not matter. -/
lemma readFirst_eq_unpackBytes (hall : ∀ form, form ∈ order) :
    readFirst limit order b = unpackBytes limit b := by
  unfold readFirst
  split
  case h_1 form hfind =>
    have hform : form.isFormOf b := List.find?_some (p := (isFormOf · b)) hfind
    exact (unpackBytes_of_isFormOf hform).symm
  case h_2 hfind =>
    exact (unpackBytes_of_none fun form => List.find?_eq_none.1 hfind form (hall form)).symm

/-! ### The test -/

lemma isTaggedTree_eq (b : Bytes) :
    isTaggedTree b = (tree.isFormOf b && (decode defaultLimit b.tail).isOk) := by
  match b with
  | [] => rfl
  | [x] => simp [isTaggedTree, isFormOf]
  | x :: y :: rest => simp [isTaggedTree, isFormOf]

/-- A byte string passes the test when the reading in its form succeeds. -/
lemma isOpenable_bytes_iff : (literal (.bytes b) u).isOpenable ↔
    ∃ form : PackedForm, form.isFormOf b ∧ ∃ e, form.read defaultLimit b = .ok e := by
  simp only [← Except.isOk_iff]
  constructor
  · intro h
    simp only [isOpenable, bytes?, isTaggedTree_eq, Bool.or_eq_true, Bool.and_eq_true] at h
    rcases h with (h | h) | h
    · exact ⟨tree, h⟩
    · exact ⟨text, h, rfl⟩
    · obtain ⟨a, ha⟩ := Except.isOk_iff.1 h
      exact ⟨address, h, by rw [PackedForm.read, ha]; rfl⟩
  · rintro ⟨form, hform, hread⟩
    simp only [isOpenable, bytes?, isTaggedTree_eq, Bool.or_eq_true, Bool.and_eq_true]
    cases form with
    | tree => exact .inl (.inl ⟨hform, hread⟩)
    | text => exact .inl (.inr hform)
    | address => exact .inr hform

/-- A byte string is unpacked when the reading in its form succeeds. -/
lemma exists_unpackBytes_iff : (∃ e, unpackBytes limit b = .ok e) ↔
    ∃ form : PackedForm, form.isFormOf b ∧ ∃ e, form.read limit b = .ok e := by
  constructor
  · rintro ⟨e, hread⟩
    by_cases hform : ∃ form : PackedForm, form.isFormOf b
    · obtain ⟨form, hform⟩ := hform
      exact ⟨form, hform, e, by rw [← unpackBytes_of_isFormOf hform, hread]⟩
    · rw [unpackBytes_of_none fun form h => hform ⟨form, h⟩] at hread
      cases hread
  · rintro ⟨form, hform, e, hread⟩
    exact ⟨e, by rw [unpackBytes_of_isFormOf hform, hread]⟩

lemma exists_unpack_iff : (∃ t, unpack limit (literal (.bytes b) u) = .ok t) ↔
    ∃ e, unpackBytes limit b = .ok e := by
  have hunpack : unpack limit (literal (.bytes b) u) = (unpackBytes limit b).map markUnpacked := rfl
  simp [hunpack, Except.map_eq_ok_iff]

/-- The test for packed bytes is right for every tree: it says whether unpacking succeeds.  And a
byte string has the looks of at most one form, a tree behind the tag byte, ASCII text or an address;
so unpacking gives what it would give if the three forms were tried in any other order. -/
theorem isOpenable_iff_unpack :
    (∀ e : Expr, e.isOpenable ↔ ∃ t, unpack defaultLimit e = .ok t) ∧
      (∀ (b : Bytes) (form form' : PackedForm), form.isFormOf b → form'.isFormOf b →
        form = form') ∧
      ∀ order : List PackedForm, (∀ form, form ∈ order) → ∀ limit b u,
        unpack limit (literal (.bytes b) u) = (readFirst limit order b).map markUnpacked := by
  refine ⟨fun e => ?_, fun b form form' => eq_of_isFormOf, fun order hall limit b u => ?_⟩
  · cases hb : e.bytes? with
    | none => simp [isOpenable, unpack, hb]
    | some b =>
      obtain ⟨u, rfl⟩ : ∃ u, e = literal (.bytes b) u := by
        rcases e with ⟨_ | _ | b, u⟩ | _ | _ <;> cases hb
        exact ⟨u, rfl⟩
      rw [isOpenable_bytes_iff, exists_unpack_iff, exists_unpackBytes_iff]
  · rw [readFirst_eq_unpackBytes hall]
    rfl

/-- The unit behind the tag byte, read with the forms in the opposite order, and a tag byte in front
of bytes that spell no tree, which nothing else is tried on. -/
theorem isOpenable_iff_unpack_tagged :
    let order := [PackedForm.address, .text, .tree]
    let unit := literal (.bytes [5, 3, 11]) true
    let broken := literal (.bytes [5, 32, 32]) false
    (∀ form, form ∈ order) ∧ tree.isFormOf [5, 3, 11] ∧ ¬ text.isFormOf [5, 3, 11] ∧
      unit.isOpenable ∧ (readFirst 0 order [5, 3, 11]).map markUnpacked =
        .ok (app (.data .unit) [] [] false true) ∧
      ¬ broken.isOpenable ∧ ¬ ∃ t, unpack defaultLimit broken = .ok t := by
  intro order unit broken
  obtain ⟨htest, hone, horder⟩ := isOpenable_iff_unpack
  have hall : ∀ form, form ∈ order := by
    intro form
    cases form <;> decide
  have hform : tree.isFormOf [5, 3, 11] := by decide
  have hunit : unpack 0 unit = .ok (app (.data .unit) [] [] false true) := by rfl
  have hbroken : ¬ broken.isOpenable := by decide +kernel
  refine ⟨hall, hform, fun h => ?_, (htest unit).2 ⟨_, by rfl⟩, ?_, hbroken,
    fun h => hbroken ((htest broken).2 h)⟩
  · exact absurd (hone _ _ _ hform h) (by decide)
  · rw [← horder order hall 0 _ true, hunit]

end Expr

end Michelson
