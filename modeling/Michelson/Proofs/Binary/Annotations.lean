/-
# Lists of annotations in bytes

A list of annotations is written as one payload, its members separated by spaces.  It can be
written when no member is empty or has a space, and such a list is read back; a payload that can be
read is the one form of the list it holds.  In particular a payload with a doubled, leading or
trailing space is the form of no list.
-/
import Michelson.Proofs.Binary.Reading
import Michelson.Proofs.Text.Split

namespace Michelson

lemma encodeBlock_of_isShort {b : Bytes} (h : b.IsShort) : encodeBlock b = .ok b.sized :=
  if_pos h

lemma isShort_of_encodeBlock {payload b : Bytes} (h : encodeBlock payload = .ok b) :
    payload.IsShort := by
  rw [encodeBlock] at h
  split at h
  case isTrue hshort => exact hshort
  case isFalse => cases h

lemma isAnnot_iff {annot : String} : isAnnot annot ↔ annot ≠ "" ∧ ' ' ∉ annot.toList := by
  simp [isAnnot]

lemma Utf8.encode_eq_nil_iff {s : String} : Utf8.encode s = [] ↔ s = "" := by
  constructor
  · intro h
    have hs := Utf8.decode?_encode s
    have hempty := Utf8.decode?_encode ""
    rw [h] at hs
    exact Option.some.inj (hs.symm.trans hempty)
  · rintro rfl
    rfl

/-- The payload of a list of annotations. -/
def annotText (annots : List String) : Bytes := Utf8.encode (Text.join ' ' annots)

/-- Whether a list of annotations can be written. -/
def AreAnnots (annots : List String) : Prop := ∀ a ∈ annots, isAnnot a

lemma encodeAnnots_eq_encodeBlock {annots : List String} (h : AreAnnots annots) :
    encodeAnnots annots = encodeBlock (annotText annots) := by
  have hfind : annots.find? (fun a => !isAnnot a) = none :=
    List.find?_eq_none.2 fun a ha => by simp [h a ha]
  rw [encodeAnnots, hfind, annotText]

lemma encodeAnnots_of_areAnnots {annots : List String} (h : AreAnnots annots)
    (hshort : (annotText annots).IsShort) :
    encodeAnnots annots = .ok (annotText annots).sized := by
  rw [encodeAnnots_eq_encodeBlock h, encodeBlock_of_isShort hshort]

/-- The first annotation that cannot be written is reported. -/
lemma encodeAnnots_of_not_areAnnots {annots : List String} (h : ¬ AreAnnots annots) :
    ∃ a ∈ annots, ¬ isAnnot a ∧ encodeAnnots annots = .error (.invalidAnnot (.malformed a)) := by
  cases hfind : annots.find? (fun a => !isAnnot a) with
  | none =>
    refine absurd (fun a ha => ?_) h
    simpa using List.find?_eq_none.1 hfind a ha
  | some a =>
    refine ⟨a, List.mem_of_find?_eq_some hfind, ?_, by rw [encodeAnnots, hfind]⟩
    simpa using List.find?_some hfind

lemma areAnnots_of_encodeAnnots {annots : List String} {b : Bytes}
    (h : encodeAnnots annots = .ok b) : AreAnnots annots ∧ (annotText annots).IsShort := by
  by_cases hannots : AreAnnots annots
  · rw [encodeAnnots_eq_encodeBlock hannots] at h
    exact ⟨hannots, isShort_of_encodeBlock h⟩
  · obtain ⟨a, -, -, herror⟩ := encodeAnnots_of_not_areAnnots hannots
    rw [herror] at h
    cases h

lemma AreAnnots.not_mem_empty {annots : List String} (h : AreAnnots annots) : "" ∉ annots :=
  fun hmem => (isAnnot_iff.1 (h "" hmem)).1 rfl

lemma AreAnnots.split_join {annots : List String} (h : AreAnnots annots) (hne : annots ≠ []) :
    Text.split ' ' (Text.join ' ' annots) = annots :=
  Text.split_join hne fun a ha => (isAnnot_iff.1 (h a ha)).2

lemma AreAnnots.annotText_eq_nil_iff {annots : List String} (h : AreAnnots annots) :
    annotText annots = [] ↔ annots = [] := by
  rw [annotText, Utf8.encode_eq_nil_iff]
  constructor
  · intro hjoin
    by_contra hne
    exact Text.join_ne_empty hne h.not_mem_empty hjoin
  · rintro rfl
    rfl

/-- A list of annotations that can be written is read back. -/
lemma reads_decodeAnnots {annots : List String} (h : AreAnnots annots)
    (hshort : (annotText annots).IsShort) :
    Decoder.Reads decodeAnnots (annotText annots).sized annots := by
  intro rest
  rw [decodeAnnots, Decoder.bind_apply_of_ok (Decoder.reads_block hshort rest)]
  by_cases hne : annots = []
  · subst hne
    rfl
  · have htext : annotText annots ≠ [] := mt h.annotText_eq_nil_iff.1 hne
    have hempty : (annotText annots).isEmpty = false := by simpa using htext
    have hdecode : Utf8.decode? (annotText annots) = some (Text.join ' ' annots) :=
      Utf8.decode?_encode _
    have hcontains : annots.contains "" = false := by simpa using h.not_mem_empty
    simp only [hempty, hdecode, h.split_join hne, hcontains, Bool.false_eq_true, if_false]
    rfl

/-- A payload that can be read is the one form of its list. -/
lemma decodeAnnots_exact :
    Decoder.Exact decodeAnnots (fun annots => (annotText annots).sized)
      fun annots => AreAnnots annots ∧ (annotText annots).IsShort := by
  intro b annots rest h
  obtain ⟨raw, mid, h1, h2⟩ := Decoder.bind_eq_ok_iff.1 h
  obtain ⟨rfl, hshort⟩ := Decoder.block_eq_ok_iff.1 h1
  suffices hraw : annotText annots = raw ∧ AreAnnots annots ∧ rest = mid by
    obtain ⟨rfl, hannots, rfl⟩ := hraw
    exact ⟨rfl, hannots, hshort⟩
  by_cases hempty : raw.isEmpty
  · rw [if_pos hempty] at h2
    obtain ⟨rfl, rfl⟩ := Decoder.pure_eq_ok_iff.1 h2
    exact ⟨(List.isEmpty_iff.1 hempty).symm, fun a ha => absurd ha List.not_mem_nil, rfl⟩
  · rw [if_neg hempty] at h2
    cases hdecode : Utf8.decode? raw with
    | none => simp only [hdecode] at h2; exact absurd h2 Decoder.throw_ne_ok
    | some text =>
      simp only [hdecode] at h2
      by_cases hcontains : (Text.split ' ' text).contains ""
      · rw [if_pos hcontains] at h2
        cases h2
      · rw [if_neg hcontains] at h2
        obtain ⟨rfl, rfl⟩ := Decoder.pure_eq_ok_iff.1 h2
        refine ⟨?_, fun a ha => isAnnot_iff.2 ⟨?_, Text.not_mem_of_mem_split ha⟩, rfl⟩
        · rw [annotText, Text.join_split, Utf8.encode_of_decode? hdecode]
        · rintro rfl
          exact hcontains (List.contains_iff_mem.2 ha)

end Michelson
