/-
# Trees as JSON text

The JSON text of a tree is read with its own limit, on the arrays and objects inside one another.
An application that has arguments takes two of these levels, its object and the array of its
arguments, and a sequence takes one, so the height of a tree gives its nesting up to a factor
(`nesting_toJson_bounds`).  This limit is far below the limit on heights, which therefore never
decides: the text of a tree is read back if the tree nests in the levels of a text, and is refused
as malformed otherwise (`ofJsonText_printJson`).

The main statement is `ofJsonText_printJson_of_decode`, about the trees that were read from bytes.
-/
import Michelson.Proofs.Expr.Document
import Michelson.Proofs.Expr.Exact
import Michelson.Proofs.Json.Printing

namespace Michelson.Expr

open Json (nestingAll nestingAll_le_iff)

variable {e : Expr}

/-! ### The nesting of a tree -/

/-- A tree is written without numbers: even whole numbers are texts. -/
lemma isNumberless_toJson (e : Expr) : e.toJson.IsNumberless := by
  induction e using Expr.induct with
  | literal l u =>
    cases l <;> exact .object (List.forall_mem_singleton.2 (.text _))
  | seq items u ih =>
    rw [toJson, toJsonAll_eq_map]
    exact .array (List.forall_mem_map.2 ih)
  | app p args annots w u ih =>
    obtain ⟨members, hmembers, -, hcases⟩ := exists_sorted_members p args annots w u
    rw [hmembers]
    refine .object fun m hm => ?_
    rcases hcases m hm with hm | ⟨-, hm⟩ | ⟨-, hm⟩ <;> rw [hm]
    · exact .text _
    · rw [toJsonAll_eq_map]
      exact .array (List.forall_mem_map.2 ih)
    · exact .array (List.forall_mem_map.2 fun a ha => .text a)

lemma nesting_toJson_seq (items : List Expr) (u : Bool) :
    (toJson (seq items u)).nesting = nestingAll (toJsonAll items) + 1 := by
  rw [toJson, Json.nesting]

/-- An application takes one level for itself and one for each of its lists. -/
lemma nesting_toJson_app (p : Primitive) (args : List Expr) (annots : List String) (w u : Bool) :
    (toJson (app p args annots w u)).nesting =
      max (if annots.isEmpty then 0 else 1)
        (if args.isEmpty then 0 else nestingAll (toJsonAll args) + 1) + 1 := by
  have htexts : nestingAll (annots.map .text) = 0 := by
    rw [← Nat.le_zero, nestingAll_le_iff]
    simp [Json.nesting]
  cases args <;> cases annots <;>
    simp_all [toJson, Json.nesting, Json.nestingMembers, Json.nestingMember]

lemma heightAll_le_nestingAll {es : List Expr} (h : ∀ e ∈ es, e.height < e.toJson.nesting) :
    heightAll es ≤ nestingAll (toJsonAll es) := by
  refine heightAll_le_iff.2 fun e he => (h e he).trans_le ?_
  rw [toJsonAll_eq_map]
  exact nestingAll_le_iff.1 le_rfl _ (List.mem_map_of_mem he)

lemma nestingAll_toJsonAll_le {es : List Expr}
    (h : ∀ e ∈ es, e.toJson.nesting ≤ 2 * e.height + 2) :
    nestingAll (toJsonAll es) ≤ 2 * heightAll es := by
  rw [toJsonAll_eq_map, nestingAll_le_iff, List.forall_mem_map]
  intro e he
  have hnesting := h e he
  have hheight := heightAll_le_iff.1 le_rfl e he
  omega

/-- Every level of a tree takes a level of its text, or two, and the deepest node takes one more for
its object and maybe one for its annotations. -/
lemma nesting_toJson_bounds (e : Expr) :
    e.height < e.toJson.nesting ∧ e.toJson.nesting ≤ 2 * e.height + 2 := by
  induction e using Expr.induct with
  | literal l u =>
    cases l <;> simp [height, toJson, Json.nesting, Json.nestingMembers, Json.nestingMember]
  | seq items u ih =>
    have hlower := heightAll_le_nestingAll fun e he => (ih e he).1
    have hupper := nestingAll_toJsonAll_le fun e he => (ih e he).2
    rw [nesting_toJson_seq, height]
    omega
  | app p args annots w u ih =>
    have hlower := heightAll_le_nestingAll fun e he => (ih e he).1
    have hupper := nestingAll_toJsonAll_le fun e he => (ih e he).2
    rw [nesting_toJson_app, height]
    cases args with
    | nil =>
      rw [List.isEmpty_nil, if_pos rfl, heightAll]
      split <;> omega
    | cons a args =>
      rw [List.isEmpty_cons, if_neg Bool.false_ne_true]
      split <;> omega

/-! ### Reading the text of a tree -/

/-- The JSON form of a tree is the value of its document just if there are levels enough. -/
lemma value?_toJson_eq (e : Expr) (levels : Nat) :
    (Document.ofJson e.toJson).value? levels =
      if e.toJson.nesting ≤ levels then some e.toJson else none := by
  split
  case isTrue h => exact value?_toJson h
  case isFalse h =>
    refine Option.eq_none_iff_forall_ne_some.2 fun j hj => h ?_
    exact Document.nesting_le_of_value?_ofJson (isNumberless_toJson e) hj

/-- The text of a tree with annotations that can be written is read back, in canonical form, if it
nests in the levels of a text, and is refused otherwise. -/
lemma ofJsonText_printJson (h : e.IsWellAnnotated) :
    ofJsonText e.printJson =
      if e.toJson.nesting ≤ Json.maxLevels then .ok e.canonical else .error .malformedJson := by
  rw [ofJsonText, printJson, Json.parse?_print (isNumberless_toJson e), value?_toJson_eq]
  by_cases hnesting : e.toJson.nesting ≤ Json.maxLevels
  · -- in so few levels no tree is too high
    have hheight : e.height ≤ defaultLimit := by
      have hbounds := (nesting_toJson_bounds e).1
      rw [Json.maxLevels] at hnesting
      rw [defaultLimit]
      omega
    rw [if_pos hnesting, if_pos hnesting]
    exact (ofJson_toJson_of_isWellAnnotated defaultLimit h).trans (if_pos hheight)
  · rw [if_neg hnesting, if_neg hnesting]

/-- A tree that was read from bytes is written as a text.  The text is read back as the same tree,
annotations included, if it nests in the levels of a text, and is refused as malformed otherwise.
The nesting is above the height and at most twice the height and two, so every tree of height up to
62 is read back, and none of height 127 or more, which the limit for bytes admits up to 1024. -/
theorem ofJsonText_printJson_of_decode {b : Bytes} (h : decode defaultLimit b = .ok e) :
    ofJsonText e.printJson =
        (if e.toJson.nesting ≤ Json.maxLevels then .ok e.canonical else .error .malformedJson) ∧
      same e.canonical e ∧
      (e.height ≤ 62 → e.toJson.nesting ≤ Json.maxLevels) ∧
      (127 ≤ e.height → ¬ e.toJson.nesting ≤ Json.maxLevels) := by
  obtain ⟨-, hreadable⟩ := decode_eq_ok_iff.1 h
  obtain ⟨hlower, hupper⟩ := nesting_toJson_bounds e
  refine ⟨ofJsonText_printJson hreadable.spellable.annots, same_canonical e, ?_, ?_⟩
  all_goals
    rw [Json.maxLevels]
    omega

/-- A text with a quote, a line end and a control character, behind an annotation. -/
theorem ofJsonText_printJson_of_decode_pair :
    let b : Bytes := [0x08, 0x07, 1, 0, 0, 0, 3, 0x22, 0x0a, 0x01, 2, 0, 0, 0, 2, 0x03, 0x0b,
      0, 0, 0, 2, 0x25, 0x78]
    let e := app (.data .pair) [string "\"\n\x01", list [app (.data .unit) [] [] false false]]
      ["%x"] false false
    decode defaultLimit b = .ok e ∧ ofJsonText e.printJson = .ok e := by
  intro b e
  have h : decode defaultLimit b = .ok e := by rfl
  obtain ⟨hread, -, hlow, -⟩ := ofJsonText_printJson_of_decode h
  rw [if_pos (hlow (by decide))] at hread
  exact ⟨h, hread⟩

/-- The empty list inside of `n` lists. -/
def nestedLists : Nat → Expr
  | 0 => list []
  | n + 1 => list [nestedLists n]

lemma height_nestedLists (n : Nat) : (nestedLists n).height = n := by
  induction n with
  | zero => rfl
  | succ n ih => simp [nestedLists, list, height, heightAll, ih]

lemma length_spelling_nestedLists (n : Nat) : (nestedLists n).spelling.length = 5 * (n + 1) := by
  induction n with
  | zero => rfl
  | succ n ih =>
    simp [nestedLists, list, spelling, spellingAll, Bytes.sized, Bytes.length_word, ih]
    omega

lemma isReadable_nestedLists {n : Nat} (h : n ≤ defaultLimit) :
    (nestedLists n).IsReadable (n + 1) := by
  induction n with
  | zero =>
    refine isReadable_of_args (by simp [nestedLists, list, args]) ?_ ?_ rfl
    · simp [nestedLists, list, annots, AreAnnots]
    · simp [nestedLists, list, payloads, spellingAll, Bytes.IsShort]
  | succ n ih =>
    have hlist := ih (by omega)
    refine isReadable_of_args (List.forall_mem_singleton.2 hlist) ?_ ?_ ?_
    · simp [nestedLists, list, annots, AreAnnots]
    · have hlength := length_spelling_nestedLists n
      rw [defaultLimit] at h
      simp [nestedLists, list, payloads, spellingAll, Bytes.IsShort, hlength]
      omega
    · rw [nestedLists, list, normal, normalAll_eq_self (List.forall_mem_singleton.2 hlist)]

/-- Lists inside of lists, 128 of them: their bytes are read, their text is not. -/
theorem ofJsonText_printJson_ne_of_nested :
    decode defaultLimit (nestedLists 127).spelling = .ok (nestedLists 127) ∧
      ofJsonText (nestedLists 127).printJson = .error .malformedJson := by
  have hreadable : (nestedLists 127).IsReadable 128 := isReadable_nestedLists (by decide)
  have hnesting : ¬ (nestedLists 127).toJson.nesting ≤ Json.maxLevels := by
    have hbounds := (nesting_toJson_bounds (nestedLists 127)).1
    rw [height_nestedLists] at hbounds
    exact Nat.not_le_of_lt hbounds
  refine ⟨decode_eq_ok_iff.2 ⟨rfl, hreadable.mono (by decide)⟩, ?_⟩
  rw [ofJsonText_printJson hreadable.spellable.annots, if_neg hnesting]

end Michelson.Expr
