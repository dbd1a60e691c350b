/-
# Trees in documents

A tree is read from a document in two steps: the value of the document, in the levels that are left,
and the tree of the value, within the limit on heights.  The JSON form of a tree is the value of its
document when the levels suffice, since its members are sorted already, so the tree is read back in
its canonical form (`ofDocument_toJson`).

Reading drops what the JSON form does not write, so the tree that was read fits in the levels of the
document it was read from (`fitsDocument_of_ofDocument`).
-/
import Michelson.Proofs.Expr.Canonical
import Michelson.Proofs.Json.Nesting

namespace Michelson.Expr

open Document (value?_array_of_forall value?_object_of_forall)

variable {part : Json → Except Error Expr} {levels limit : Nat}

lemma toJsonAll_eq_map (es : List Expr) : toJsonAll es = es.map toJson := by
  induction es with
  | nil => rfl
  | cons e es ih => rw [toJsonAll, ih, List.map_cons]

lemma toJson_ne_null (e : Expr) : e.toJson ≠ .null := by
  cases e with
  | literal l u => cases l <;> simp [toJson]
  | seq items u => simp [toJson]
  | app p args annots w u => simp [toJson]

/-! ### The value of the document of a tree -/

lemma value?_texts (ts : List String) :
    (Document.ofJson (.array (ts.map .text))).value? (levels + 1) =
      some (.array (ts.map .text)) := by
  have htexts : ∀ j ∈ ts.map Json.text, (Document.ofJson j).value? levels = some (id j) := by
    intro j hj
    obtain ⟨t, -, rfl⟩ := List.mem_map.1 hj
    rfl
  rw [value?_array_of_forall htexts, List.map_id]

lemma value?_toJsonAll {es : List Expr}
    (h : ∀ e ∈ es, (Document.ofJson e.toJson).value? levels = some e.toJson) :
    (Document.ofJson (.array (toJsonAll es))).value? (levels + 1) =
      some (.array (toJsonAll es)) := by
  have hparts : ∀ j ∈ toJsonAll es, (Document.ofJson j).value? levels = some (id j) := by
    rw [toJsonAll_eq_map]
    intro j hj
    obtain ⟨e, he, rfl⟩ := List.mem_map.1 hj
    exact h e he
  rw [value?_array_of_forall hparts, List.map_id]

/-- The members of the JSON form of an application are sorted. -/
lemma exists_sorted_members (p : Primitive) (args : List Expr) (annots : List String)
    (w u : Bool) :
    ∃ members, toJson (app p args annots w u) = .object members ∧
      Json.ofMembers members = .object members ∧
      ∀ m ∈ members, m.2 = .text p.name ∨ args ≠ [] ∧ m.2 = .array (toJsonAll args) ∨
        annots ≠ [] ∧ m.2 = .array (annots.map .text) := by
  refine ⟨_, by rw [toJson], ?_, ?_⟩
  · cases args <;> cases annots <;> cbv
  · cases args <;> cases annots <;> simp

/-- The JSON form of a tree is the value of its document, if there are levels enough. -/
lemma value?_toJson {e : Expr} (h : e.toJson.nesting ≤ levels) :
    (Document.ofJson e.toJson).value? levels = some e.toJson := by
  induction e using Expr.induct generalizing levels with
  | literal l u =>
    cases l with
    | int n | string s | bytes b =>
      obtain ⟨below, rfl, -⟩ := Json.nesting_object_le_iff.1 h
      rfl
  | seq items u ih =>
    obtain ⟨below, rfl, hitems⟩ := Json.nesting_array_le_iff.1 h
    rw [toJsonAll_eq_map] at hitems
    exact value?_toJsonAll fun e he => ih e he (hitems e.toJson (List.mem_map_of_mem he))
  | app p args annots w u ih =>
    obtain ⟨members, hmembers, hsorted, hcases⟩ := exists_sorted_members p args annots w u
    rw [hmembers] at h ⊢
    obtain ⟨below, rfl, hbelow⟩ := Json.nesting_object_le_iff.1 h
    rw [value?_object_of_forall, hsorted]
    intro m hm
    have hnesting := hbelow m hm
    rcases hcases m hm with hm | ⟨-, hm⟩ | ⟨-, hm⟩ <;> rw [hm] at hnesting ⊢
    · rfl
    · obtain ⟨rest, rfl, hargs⟩ := Json.nesting_array_le_iff.1 hnesting
      rw [toJsonAll_eq_map] at hargs
      exact value?_toJsonAll fun e he => ih e he (hargs e.toJson (List.mem_map_of_mem he))
    · obtain ⟨rest, rfl, -⟩ := Json.nesting_array_le_iff.1 hnesting
      exact value?_texts annots

/-! ### The nesting of a tree that was read -/

/-- Whatever a reader of parts returns is written no deeper than the value it was read from. -/
def ReadsNoDeeper (part : Json → Except Error Expr) : Prop :=
  ∀ j e, part j = .ok e → e.toJson.nesting ≤ j.nesting

lemma ReadsNoDeeper.nesting_toJsonAll_le (hpart : ReadsNoDeeper part) {js : List Json}
    {es : List Expr} (h : js.mapM part = .ok es) :
    (Json.array (toJsonAll es)).nesting ≤ (Json.array js).nesting := by
  rw [Json.nesting_array_le_iff]
  refine ⟨Json.nestingAll js, rfl, ?_⟩
  rw [toJsonAll_eq_map]
  intro j hj
  obtain ⟨e, he, rfl⟩ := List.mem_map.1 hj
  obtain ⟨j, hj, hread⟩ := Except.exists_of_mem_mapM h he
  exact (hpart j e hread).trans (Json.nestingAll_le_iff.1 (Nat.le_refl _) j hj)

/-- A list of arguments that is not empty was read from a member. -/
lemma ReadsNoDeeper.readArgs (hpart : ReadsNoDeeper part) {member : Option Json} {es : List Expr}
    (h : readArgs part member = .ok es) :
    es = [] ∨ ∃ j, member = some j ∧ (Json.array (toJsonAll es)).nesting ≤ j.nesting := by
  unfold Expr.readArgs at h
  split at h
  · cases h
    exact Or.inl rfl
  · cases h
    exact Or.inl rfl
  · exact Or.inr ⟨_, rfl, hpart.nesting_toJsonAll_le h⟩
  · cases h

/-- So was a list of annotations. -/
lemma exists_of_annotsOf {member : Option Json} {annots : List String}
    (h : annotsOf member = .ok annots) :
    annots = [] ∨ ∃ j, member = some j ∧ (Json.array (annots.map .text)).nesting ≤ j.nesting := by
  unfold annotsOf at h
  split at h
  · cases h
    exact Or.inl rfl
  · cases h
    exact Or.inl rfl
  · refine Or.inr ⟨_, rfl, Json.nesting_array_le_iff.2 ⟨_, rfl, fun j hj => ?_⟩⟩
    obtain ⟨a, -, rfl⟩ := List.mem_map.1 hj
    exact Nat.zero_le _
  · cases h

lemma ReadsNoDeeper.ofJsonNode (hpart : ReadsNoDeeper part) : ReadsNoDeeper (ofJsonNode part) := by
  intro j e h
  unfold Expr.ofJsonNode at h
  split at h
  · obtain ⟨items, hitems, h⟩ := Except.bind_eq_ok_iff.1 h
    cases h
    exact hpart.nesting_toJsonAll_le hitems
  · next members =>
    have hmember : ∀ {name : String} {j : Json}, NameMap.find? name members = some j →
        j.nesting ≤ Json.nestingMembers members := by
      intro name j hfind
      obtain ⟨before, behind, rfl, -⟩ := List.lookup_eq_some_iff.1 hfind
      exact Json.nestingMembers_le_iff.1 (Nat.le_refl _) (name, j) (by simp)
    split at h
    · obtain ⟨l, rfl⟩ := exists_literal_of_readLiteral h
      cases l <;> exact Nat.succ_le_succ (Nat.zero_le _)
    · obtain ⟨p, -, h⟩ := Except.bind_eq_ok_iff.1 h
      obtain ⟨args, hargs, h⟩ := Except.bind_eq_ok_iff.1 h
      obtain ⟨annots, hannots, h⟩ := Except.bind_eq_ok_iff.1 h
      cases h
      obtain ⟨written, hwritten, -, hcases⟩ :=
        exists_sorted_members p args annots (2 < args.length) false
      rw [hwritten]
      refine Json.nesting_object_le_iff.2 ⟨_, rfl, fun m hm => ?_⟩
      -- a member is written for a list that is not empty, and such a list was read from a member
      rcases hcases m hm with htext | ⟨hne, harray⟩ | ⟨hne, harray⟩
      · rw [htext]
        exact Nat.zero_le _
      · obtain ⟨j, hfind, hle⟩ := (hpart.readArgs hargs).resolve_left hne
        rw [harray]
        exact hle.trans (hmember hfind)
      · obtain ⟨j, hfind, hle⟩ := (exists_of_annotsOf hannots).resolve_left hne
        rw [harray]
        exact hle.trans (hmember hfind)
  · cases h

lemma readsNoDeeper_ofJsonWithin (limit levels : Nat) :
    ReadsNoDeeper (ofJsonWithin limit levels) := by
  induction levels with
  | zero =>
    intro j e h
    cases h
  | succ levels ih => exact ih.ofJsonNode

/-! ### Reading documents -/

/-- A tree that is read back from a document of so many levels. -/
structure FitsDocument (levels : Nat) (e : Expr) : Prop where
  annots : e.IsWellAnnotated
  height_le : e.height ≤ defaultLimit
  nesting_le : e.toJson.nesting ≤ levels

/-- A tree is read from the document of its JSON form, in canonical form. -/
lemma ofDocument_toJson {e : Expr} (h : e.FitsDocument levels) :
    ofDocument levels (Document.ofJson e.toJson) = .ok e.canonical := by
  simp only [ofDocument, Document.readJson, value?_toJson h.nesting_le, Except.ok_bind,
    ofJson_toJson_of_isWellAnnotated defaultLimit h.annots, if_pos h.height_le]

/-- A tree that was read from a document is canonical, and fits in the levels of the document. -/
lemma fitsDocument_of_ofDocument {d : Document} {e : Expr} (h : ofDocument levels d = .ok e) :
    e.FitsDocument levels ∧ e.canonical = e := by
  obtain ⟨j, hj, h⟩ := Except.bind_eq_ok_iff.1 h
  unfold Document.readJson at hj
  split at hj <;> cases hj
  next hvalue =>
    split at h <;> cases h
    next hread =>
      have hcanonical := isCanonical_of_ofJsonWithin _ _ _ _ hread
      have hnesting := readsNoDeeper_ofJsonWithin _ _ _ _ hread
      exact ⟨⟨hcanonical.annots, Nat.le_of_lt_succ hcanonical.height_lt,
        hnesting.trans (Document.nesting_le_of_value? hvalue)⟩, hcanonical.canonical_eq⟩

end Michelson.Expr
