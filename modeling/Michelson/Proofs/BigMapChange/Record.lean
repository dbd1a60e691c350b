/-
# Changes of big maps as records

The record of a change leaves out what the change does not have, and reading takes a missing member
for an absent part.  What is read does not depend on the order of the members: after some of them
the draft has the parts with their names and no others (`readMember_of_field`), so that any order of
all members leads to the same draft, and this to the change (`ofDocument_of_hasMembers`).

In the other direction a record can have much that is not written again: unknown members, types in
an update, a value in an allocation, absent values given as `null`.  The change that is read has
only what its kind determines (`isRecorded_of_ofDocument`).
-/
import Michelson.Proofs.BigMapChange.Parts
import Michelson.Proofs.Expr.Document
import Michelson.Proofs.Json.Record

namespace Michelson.BigMapChange

variable {e : BigMapChange} {levels : Nat}

/-! ### The members of a record -/

/-- The members that the record of a change can have, in the order in which they are written, with
the values of those that it has. -/
def parts (e : BigMapChange) : List (String × Option Json) := [
  ("action", some e.action.toJson),
  ("big_map", if e.action = .copy then none else some (.text (toString e.id))),
  ("key_hash", e.keyHash.map .text),
  ("key", e.key.map Expr.toJson),
  ("value", e.value.map Expr.toJson),
  ("key_type", e.keyType.map Expr.toJson),
  ("value_type", e.valueType.map Expr.toJson),
  ("source_big_map", if e.action = .copy then some (.text (toString e.source)) else none),
  ("destination_big_map", if e.action = .copy then some (.text (toString e.dest)) else none)]

/-- The value of a member in the record of a change, if the record has this member. -/
def field (e : BigMapChange) (name : String) : Option Json := (e.parts.lookup name).join

@[simp] lemma field_action (e : BigMapChange) : e.field "action" = some e.action.toJson := rfl

@[simp] lemma field_big_map (e : BigMapChange) :
    e.field "big_map" = if e.action = .copy then none else some (.text (toString e.id)) := rfl

@[simp] lemma field_key_hash (e : BigMapChange) : e.field "key_hash" = e.keyHash.map .text := rfl

@[simp] lemma field_key (e : BigMapChange) : e.field "key" = e.key.map Expr.toJson := rfl

@[simp] lemma field_value (e : BigMapChange) : e.field "value" = e.value.map Expr.toJson := rfl

@[simp] lemma field_key_type (e : BigMapChange) :
    e.field "key_type" = e.keyType.map Expr.toJson := rfl

@[simp] lemma field_value_type (e : BigMapChange) :
    e.field "value_type" = e.valueType.map Expr.toJson := rfl

@[simp] lemma field_source_big_map (e : BigMapChange) :
    e.field "source_big_map" =
      if e.action = .copy then some (.text (toString e.source)) else none := rfl

@[simp] lemma field_destination_big_map (e : BigMapChange) :
    e.field "destination_big_map" =
      if e.action = .copy then some (.text (toString e.dest)) else none := rfl

/-- These are the members of the record of a change, in some order. -/
structure HasMembers (e : BigMapChange) (ms : List (String × Json)) : Prop where
  nodup : (ms.map Prod.fst).Nodup
  find?_eq : ∀ name, NameMap.find? name ms = e.field name

lemma toJson_eq (e : BigMapChange) :
    e.toJson = .object (e.parts.flatMap fun p => member p.1 p.2) := by
  simp [toJson, parts, member]

lemma map_fst_flatMap_member (ps : List (String × Option Json)) :
    ((ps.flatMap fun p => member p.1 p.2).map Prod.fst).Sublist (ps.map Prod.fst) := by
  induction ps with
  | nil => exact List.Sublist.slnil
  | cons p ps ih =>
    obtain ⟨name, value⟩ := p
    rw [List.flatMap_cons, List.map_append, List.map_cons]
    cases value with
    | none => exact ih.cons name
    | some j => exact ih.cons_cons name

lemma find?_flatMap_member {ps : List (String × Option Json)} (hnodup : (ps.map Prod.fst).Nodup)
    (name : String) :
    NameMap.find? name (ps.flatMap fun p => member p.1 p.2) = (ps.lookup name).join := by
  induction ps with
  | nil => rfl
  | cons p ps ih =>
    obtain ⟨other, value⟩ := p
    have htail := ih hnodup.of_cons
    have hhead : (member other value).lookup name = if name = other then value else none := by
      cases value with
      | none => simp [member]
      | some j =>
        by_cases h : name = other
        · simp [member, h]
        · simp [member, h, List.lookup_cons, beq_eq_false_iff_ne.2 h]
    rw [List.flatMap_cons, NameMap.find?, List.lookup_append, List.lookup_cons, hhead]
    by_cases h : name = other
    · -- no other member has this name, so nothing is found behind a member that is missing
      subst h
      have hnone : ps.lookup name = none :=
        Option.not_isSome_iff_eq_none.1 (mt NameMap.isSome_find?_iff.1 hnodup.notMem)
      rw [hnone] at htail
      rw [if_pos rfl, beq_self_eq_true, ← NameMap.find?, htail]
      cases value <;> rfl
    · rw [if_neg h, beq_eq_false_iff_ne.2 h]
      exact htail

lemma exists_members (e : BigMapChange) : ∃ ms, e.toJson = .object ms ∧ e.HasMembers ms := by
  have hnodup : (e.parts.map Prod.fst).Nodup := by
    simp only [parts, List.map_cons, List.map_nil]
    decide
  exact ⟨_, e.toJson_eq, (map_fst_flatMap_member e.parts).nodup hnodup,
    fun name => find?_flatMap_member hnodup name⟩

lemma mem_parts_of_field {name : String} {j : Json} (h : e.field name = some j) :
    (name, some j) ∈ e.parts := by
  obtain ⟨before, behind, heq, -⟩ := List.lookup_eq_some_iff.1 (Option.join_eq_some_iff.1 h)
  rw [heq]
  simp

lemma text_or_tree_of_field {name : String} {j : Json} (h : e.field name = some j) :
    (∃ s, j = .text s) ∨ ∃ t ∈ e.trees, j = t.toJson := by
  replace h := mem_parts_of_field h
  simp only [parts, List.mem_cons, Prod.mk.injEq, List.not_mem_nil, or_false] at h
  simp only [trees, List.mem_append, Option.mem_toList]
  -- a member is a name or number that is always there, the hash, or one of the trees
  rcases h with ⟨-, h⟩ | ⟨-, h⟩ | ⟨-, h⟩ | ⟨-, h⟩ | ⟨-, h⟩ | ⟨-, h⟩ | ⟨-, h⟩ | ⟨-, h⟩ | ⟨-, h⟩
  · exact Or.inl ⟨_, Option.some.inj h⟩
  · split at h <;> cases h
    exact Or.inl ⟨_, rfl⟩
  · obtain ⟨s, -, rfl⟩ := Option.map_eq_some_iff.1 h.symm
    exact Or.inl ⟨s, rfl⟩
  · obtain ⟨t, ht, rfl⟩ := Option.map_eq_some_iff.1 h.symm
    exact Or.inr ⟨t, by simp [ht], rfl⟩
  · obtain ⟨t, ht, rfl⟩ := Option.map_eq_some_iff.1 h.symm
    exact Or.inr ⟨t, by simp [ht], rfl⟩
  · obtain ⟨t, ht, rfl⟩ := Option.map_eq_some_iff.1 h.symm
    exact Or.inr ⟨t, by simp [ht], rfl⟩
  · obtain ⟨t, ht, rfl⟩ := Option.map_eq_some_iff.1 h.symm
    exact Or.inr ⟨t, by simp [ht], rfl⟩
  · split at h <;> cases h
    exact Or.inl ⟨_, rfl⟩
  · split at h <;> cases h
    exact Or.inl ⟨_, rfl⟩

lemma exists_field_of_mem_trees {t : Expr} (h : t ∈ e.trees) :
    ∃ name, e.field name = some t.toJson := by
  simp only [trees, List.mem_append, Option.mem_toList] at h
  rcases h with ((hkey | hvalue) | hkeyType) | hvalueType
  · exact ⟨"key", by simp [hkey]⟩
  · exact ⟨"value", by simp [hvalue]⟩
  · exact ⟨"key_type", by simp [hkeyType]⟩
  · exact ⟨"value_type", by simp [hvalueType]⟩

namespace HasMembers

variable {ms ms' : List (String × Json)}

lemma of_perm (h : e.HasMembers ms) (hperm : ms'.Perm ms) : e.HasMembers ms' :=
  ⟨(hperm.map Prod.fst).nodup_iff.2 h.nodup, fun name => by
    rw [NameMap.find?_eq_of_perm h.nodup hperm, h.find?_eq]⟩

lemma field_of_mem (h : e.HasMembers ms) {m : String × Json} (hm : m ∈ ms) :
    e.field m.1 = some m.2 := by
  rw [← h.find?_eq]
  exact NameMap.find?_eq_some_of_mem h.nodup hm

lemma mem_map_fst_iff (h : e.HasMembers ms) {name : String} :
    name ∈ ms.map Prod.fst ↔ (e.field name).isSome := by
  rw [← h.find?_eq, NameMap.isSome_find?_iff]

/-- A record takes one level more than the trees in it. -/
lemma nesting_le_iff (h : e.HasMembers ms) {n : Nat} :
    (Json.object ms).nesting ≤ n ↔
      ∃ below, n = below + 1 ∧ ∀ t ∈ e.trees, t.toJson.nesting ≤ below := by
  rw [Json.nesting_object_le_iff]
  refine exists_congr fun below => and_congr_right fun _ => ?_
  constructor
  · intro hall t ht
    obtain ⟨name, hname⟩ := exists_field_of_mem_trees ht
    rw [← h.find?_eq] at hname
    obtain ⟨before, behind, rfl, -⟩ := List.lookup_eq_some_iff.1 hname
    exact hall (name, t.toJson) (by simp)
  · intro hall m hm
    rcases text_or_tree_of_field (h.field_of_mem hm) with ⟨s, hs⟩ | ⟨t, ht, hm⟩
    · rw [hs]
      exact Nat.zero_le _
    · rw [hm]
      exact hall t ht

/-- The value of the document of a record has its members sorted. -/
lemma value?_eq (h : e.HasMembers ms) (htrees : ∀ t ∈ e.trees, t.toJson.nesting ≤ levels) :
    (Document.ofJson (.object ms)).value? (levels + 1) = some (.ofMembers ms) := by
  refine Document.value?_object_of_forall fun m hm => ?_
  rcases text_or_tree_of_field (h.field_of_mem hm) with ⟨s, hs⟩ | ⟨t, ht, hm⟩
  · rw [hs]
    rfl
  · rw [hm]
    exact Expr.value?_toJson (htrees t ht)

end HasMembers

/-! ### Reading the members -/

/-- The draft of a change of whose record the members with these names have been read. -/
def draftOf (e : BigMapChange) (names : List String) : Draft where
  action := if "action" ∈ names then some e.action else none
  id := if "big_map" ∈ names then some (some (toString e.id)) else none
  keyHash := if "key_hash" ∈ names then some e.keyHash else none
  key := if "key" ∈ names then some e.key else none
  value := if "value" ∈ names then some e.value else none
  keyType := if "key_type" ∈ names then some e.keyType else none
  valueType := if "value_type" ∈ names then some e.valueType else none
  source := if "source_big_map" ∈ names then some (some (toString e.source)) else none
  dest := if "destination_big_map" ∈ names then some (some (toString e.dest)) else none

lemma readTree_toJson {t : Expr} (h : t.FitsDocument levels) :
    readTree levels (Document.ofJson t.toJson) = .ok (some t.canonical) := by
  have hread := Expr.ofDocument_toJson h
  have hnull := Document.ofJson_ne_null t.toJson_ne_null
  unfold readTree Document.readOption
  split
  case h_1 hnone => exact absurd hnone hnull
  case h_2 =>
    rw [hread]
    rfl

/-- A member of the record of a change adds its own field to the draft. -/
lemma readMember_of_field (htrees : ∀ t ∈ e.trees, t.FitsDocument levels) {names : List String}
    {name : String} {j : Json} (hnew : name ∉ names) (h : e.field name = some j) :
    Document.readMember fields levels ((e.mapTrees Expr.canonical).draftOf names)
        (name, Document.ofJson j) =
      .ok ((e.mapTrees Expr.canonical).draftOf (names ++ [name])) := by
  replace h := mem_parts_of_field h
  simp only [parts, List.mem_cons, Prod.mk.injEq, List.not_mem_nil, or_false] at h
  have htext : ∀ s, readText (Document.ofJson (.text s)) = .ok (some s) := fun _ => rfl
  rcases h with ⟨rfl, h⟩ | ⟨rfl, h⟩ | ⟨rfl, h⟩ | ⟨rfl, h⟩ | ⟨rfl, h⟩ | ⟨rfl, h⟩ | ⟨rfl, h⟩ |
    ⟨rfl, h⟩ | ⟨rfl, h⟩
  · cases h
    have hread : ChangeKind.ofDocument levels (Document.ofJson e.action.toJson) = .ok e.action := by
      cases e.action <;> rfl
    simp [Document.readMember, fields, draftOf, mapTrees, hnew, hread]
  · split at h <;> cases h
    simp [Document.readMember, fields, draftOf, mapTrees, hnew, htext]
  · obtain ⟨s, hs, rfl⟩ := Option.map_eq_some_iff.1 h.symm
    simp [Document.readMember, fields, draftOf, mapTrees, hnew, htext, hs]
  · obtain ⟨t, ht, rfl⟩ := Option.map_eq_some_iff.1 h.symm
    have hread := readTree_toJson (htrees t (by simp [trees, ht]))
    simp [Document.readMember, fields, draftOf, mapTrees, hnew, hread, ht]
  · obtain ⟨t, ht, rfl⟩ := Option.map_eq_some_iff.1 h.symm
    have hread := readTree_toJson (htrees t (by simp [trees, ht]))
    simp [Document.readMember, fields, draftOf, mapTrees, hnew, hread, ht]
  · obtain ⟨t, ht, rfl⟩ := Option.map_eq_some_iff.1 h.symm
    have hread := readTree_toJson (htrees t (by simp [trees, ht]))
    simp [Document.readMember, fields, draftOf, mapTrees, hnew, hread, ht]
  · obtain ⟨t, ht, rfl⟩ := Option.map_eq_some_iff.1 h.symm
    have hread := readTree_toJson (htrees t (by simp [trees, ht]))
    simp [Document.readMember, fields, draftOf, mapTrees, hnew, hread, ht]
  · split at h <;> cases h
    simp [Document.readMember, fields, draftOf, mapTrees, hnew, htext]
  · split at h <;> cases h
    simp [Document.readMember, fields, draftOf, mapTrees, hnew, htext]

/-! ### The change of a record -/

/-- A change that a record determines: a copy has its two maps and nothing else but the hash, an
update has a value but no types, and other changes have one map of which they are changes. -/
inductive IsRecorded : BigMapChange → Prop
  | copy (source dest : Int) (keyHash : Option String) (hsource : isInt64 source)
      (hdest : isInt64 dest) :
      IsRecorded ⟨.copy, dest, keyHash, none, none, none, none, source, dest⟩
  | update (id : Int) (keyHash : Option String) (key : Option Expr) (value : Expr)
      (hid : isInt64 id) : IsRecorded ⟨.update, id, keyHash, key, some value, none, none, 0, 0⟩
  | other (action : ChangeKind) (id : Int) (keyHash : Option String)
      (key value keyType valueType : Option Expr) (haction : action = .remove ∨ action = .alloc)
      (hid : isInt64 id) :
      IsRecorded ⟨action, id, keyHash, key, value, keyType, valueType, 0, 0⟩

lemma IsRecorded.addKeyHash (h : e.IsRecorded) (hash : String) :
    (e.addKeyHash hash).IsRecorded := by
  cases h with
  | copy source dest keyHash hsource hdest => exact .copy source dest (some hash) hsource hdest
  | update id keyHash key value hid => exact .update id (some hash) key value hid
  | other action id keyHash key value keyType valueType haction hid =>
    exact .other action id (some hash) key value keyType valueType haction hid

lemma IsBuilt.isRecorded (h : e.IsBuilt) : e.IsRecorded := by
  induction h with
  | update id key value hid => exact .update id none (some key) value hid
  | remove id key hid => exact .other .remove id none key none none none (Or.inl rfl) hid
  | alloc id keyType valueType hid =>
    exact .other .alloc id none none none (some keyType) (some valueType) (Or.inr rfl) hid
  | copy source dest hsource hdest => exact .copy source dest none hsource hdest
  | addKeyHash hash e h ih => exact ih.addKeyHash hash

lemma fieldId_eq_ok {name : String} {text : Option String} {n : Int}
    (h : fieldId name text = .ok n) : isInt64 n := by
  unfold fieldId at h
  split at h
  · cases h
  · split at h
    · next hn =>
      cases h
      exact (Option.filter_eq_some_iff.1 hn).2
    · cases h

lemma fieldId_toString (name : String) {n : Int} (h : isInt64 n) :
    fieldId name (some (toString n)) = .ok n := by
  have hread : (Decimal.signed? (toString n)).filter isInt64 = some n :=
    Option.filter_eq_some_iff.2 ⟨Decimal.signed?_toString n, h⟩
  simp only [fieldId, hread]

/-- The trees that have been read into a draft. -/
def Draft.trees (s : Draft) : List Expr :=
  s.key.join.toList ++ s.value.join.toList ++ s.keyType.join.toList ++ s.valueType.join.toList

/-- What a draft is turned into is determined by its record, and has no other trees. -/
lemma isRecorded_of_ofDraft {action : ChangeKind} {s : Draft} (h : ofDraft action s = .ok e) :
    e.IsRecorded ∧ ∀ t ∈ e.trees, t ∈ s.trees := by
  cases action with
  | copy =>
    obtain ⟨source, hsource, h⟩ := Except.bind_eq_ok_iff.1 h
    obtain ⟨dest, hdest, h⟩ := Except.bind_eq_ok_iff.1 h
    cases h
    exact ⟨.copy source dest _ (fieldId_eq_ok hsource) (fieldId_eq_ok hdest),
      by simp [trees, copy, blank]⟩
  | update =>
    obtain ⟨id, hid, h⟩ := Except.bind_eq_ok_iff.1 h
    cases hvalue : s.value.join with
    | none =>
      rw [hvalue] at h
      cases h
      exact ⟨.other .remove id _ _ none none none (Or.inl rfl) (fieldId_eq_ok hid),
        by simp +contextual [trees, Draft.trees, remove, blank]⟩
    | some value =>
      rw [hvalue] at h
      cases h
      exact ⟨.update id _ _ value (fieldId_eq_ok hid),
        by simp +contextual [trees, Draft.trees, hvalue, blank, or_imp]⟩
  | remove =>
    obtain ⟨id, hid, h⟩ := Except.bind_eq_ok_iff.1 h
    cases h
    exact ⟨.other .remove id _ _ _ _ _ (Or.inl rfl) (fieldId_eq_ok hid), fun t ht => ht⟩
  | alloc =>
    obtain ⟨id, hid, h⟩ := Except.bind_eq_ok_iff.1 h
    cases h
    exact ⟨.other .alloc id _ _ _ _ _ (Or.inr rfl) (fieldId_eq_ok hid), fun t ht => ht⟩

lemma join_ite {α : Type} {c : Prop} [Decidable c] {part : Option α} (h : c ↔ part.isSome) :
    (if c then some part else none).join = part := by
  cases part <;> simp [h]

/-- The draft of a whole record is turned into its change, whatever became of the trees. -/
lemma ofDraft_draftOf (h : e.IsRecorded) (f : Expr → Expr) {names : List String}
    (hnames : ∀ name, name ∈ names ↔ (e.field name).isSome) :
    ofDraft e.action ((e.mapTrees f).draftOf names) = .ok (e.mapTrees f) := by
  have hhash : ((e.mapTrees f).draftOf names).keyHash.join = e.keyHash :=
    join_ite ((hnames "key_hash").trans (by simp [mapTrees]))
  have hkey : ((e.mapTrees f).draftOf names).key.join = e.key.map f :=
    join_ite ((hnames "key").trans (by simp [mapTrees]))
  have hvalue : ((e.mapTrees f).draftOf names).value.join = e.value.map f :=
    join_ite ((hnames "value").trans (by simp [mapTrees]))
  have hkeyType : ((e.mapTrees f).draftOf names).keyType.join = e.keyType.map f :=
    join_ite ((hnames "key_type").trans (by simp [mapTrees]))
  have hvalueType : ((e.mapTrees f).draftOf names).valueType.join = e.valueType.map f :=
    join_ite ((hnames "value_type").trans (by simp [mapTrees]))
  have hid : e.action ≠ .copy →
      ((e.mapTrees f).draftOf names).id.join = some (toString e.id) := by
    intro haction
    exact join_ite ((hnames "big_map").trans (by simp [haction]))
  have hsource : e.action = .copy →
      ((e.mapTrees f).draftOf names).source.join = some (toString e.source) := by
    intro haction
    exact join_ite ((hnames "source_big_map").trans (by simp [haction]))
  have hdest : e.action = .copy →
      ((e.mapTrees f).draftOf names).dest.join = some (toString e.dest) := by
    intro haction
    exact join_ite ((hnames "destination_big_map").trans (by simp [haction]))
  generalize (e.mapTrees f).draftOf names = s at *
  cases h with
  | copy source dest keyHash hsource64 hdest64 =>
    simp only [ofDraft, hhash, hsource, hdest, fieldId_toString _ hsource64,
      fieldId_toString _ hdest64, Except.ok_bind]
    rfl
  | update id keyHash key value hid64 =>
    have haction : ChangeKind.update ≠ .copy := by decide
    simp only [ofDraft, hhash, hkey, hvalue, hid haction, fieldId_toString _ hid64, Except.ok_bind]
    rfl
  | other action id keyHash key value keyType valueType haction hid64 =>
    have hread : fieldId "big_map" s.id.join = .ok id := by
      rw [hid (by rcases haction with rfl | rfl <;> simp)]
      exact fieldId_toString _ hid64
    rcases haction with rfl | rfl <;>
      simp only [ofDraft, hhash, hkey, hvalue, hkeyType, hvalueType, hread, Except.ok_bind] <;>
      rfl

/-! ### Reading a record -/

/-- The members of the record of a change, in whatever order, are read as the change with its trees
in canonical form. -/
lemma ofDocument_of_hasMembers {ms : List (String × Json)} (h : e.HasMembers ms)
    (hrecorded : e.IsRecorded) (htrees : ∀ t ∈ e.trees, t.FitsDocument levels) :
    ofDocument (levels + 1) (Document.ofJson (.object ms)) = .ok (e.mapTrees Expr.canonical) := by
  have hfst : (Document.ofMembers ms).map Prod.fst = ms.map Prod.fst := by
    rw [Document.ofMembers_eq_map, List.map_map]
    rfl
  have hfold : (Document.ofMembers ms).foldlM (Document.readMember fields levels)
      ((e.mapTrees Expr.canonical).draftOf []) =
        .ok ((e.mapTrees Expr.canonical).draftOf (ms.map Prod.fst)) := by
    rw [← hfst]
    refine Document.foldlM_readMember
      (fun before => (e.mapTrees Expr.canonical).draftOf (before.map Prod.fst))
      (fun m => ∃ j, e.field m.1 = some j ∧ m.2 = Document.ofJson j) ?_ (hfst ▸ h.nodup) ?_
    · rintro before ⟨name, d⟩ hnew ⟨j, hj, rfl⟩
      rw [List.map_append]
      exact readMember_of_field htrees hnew hj
    · rw [Document.ofMembers_eq_map]
      intro m hm
      obtain ⟨m', hm', rfl⟩ := List.mem_map.1 hm
      exact ⟨m'.2, h.field_of_mem hm', rfl⟩
  have haction : ((e.mapTrees Expr.canonical).draftOf (ms.map Prod.fst)).action = some e.action :=
    if_pos (h.mem_map_fst_iff.2 (by simp))
  have hdraft : ofDraft e.action ((e.mapTrees Expr.canonical).draftOf (ms.map Prod.fst)) =
      .ok (e.mapTrees Expr.canonical) :=
    ofDraft_draftOf hrecorded Expr.canonical fun _ => h.mem_map_fst_iff
  have hrecord := Document.readRecord_object "struct RawEvent" hfold
  -- the draft without any member is the blank draft
  have hblank : (e.mapTrees Expr.canonical).draftOf [] =
      ⟨none, none, none, none, none, none, none, none, none⟩ := rfl
  rw [hblank] at hrecord
  rw [ofDocument, Document.ofJson, hrecord, Except.ok_bind, haction, Document.needField,
    Except.ok_bind, hdraft]
  rfl

/-- A tree that was read for a field is canonical and fits in the levels. -/
lemma fitsDocument_of_readTree {d : Document} {part : Option Expr}
    (h : readTree levels d = .ok part) : ∀ t ∈ part, t.FitsDocument levels ∧ t.canonical = t := by
  unfold readTree Document.readOption at h
  split at h
  · cases h
    simp
  · obtain ⟨t, ht, rfl⟩ := Except.map_eq_ok_iff.1 h
    intro t' ht'
    cases ht'
    exact Expr.fitsDocument_of_ofDocument ht

/-- Reading a field adds at most one tree to the draft. -/
lemma trees_of_read {f : Document.Field Draft} (hf : f ∈ fields) {d : Document} {s s' : Draft}
    (h : f.read levels d s = .ok s')
    (hs : ∀ t ∈ s.trees, t.FitsDocument levels ∧ t.canonical = t) :
    ∀ t ∈ s'.trees, t.FitsDocument levels ∧ t.canonical = t := by
  simp only [fields, List.mem_cons, List.not_mem_nil, or_false] at hf
  simp only [Draft.trees, List.forall_mem_append, Option.mem_toList] at hs ⊢
  obtain ⟨⟨⟨hkey, hvalue⟩, hkeyType⟩, hvalueType⟩ := hs
  rcases hf with rfl | rfl | rfl | rfl | rfl | rfl | rfl | rfl | rfl <;>
    obtain ⟨part, hpart, h⟩ := Except.bind_eq_ok_iff.1 h <;> cases h
  · exact ⟨⟨⟨hkey, hvalue⟩, hkeyType⟩, hvalueType⟩
  · exact ⟨⟨⟨hkey, hvalue⟩, hkeyType⟩, hvalueType⟩
  · exact ⟨⟨⟨hkey, hvalue⟩, hkeyType⟩, hvalueType⟩
  · exact ⟨⟨⟨fitsDocument_of_readTree hpart, hvalue⟩, hkeyType⟩, hvalueType⟩
  · exact ⟨⟨⟨hkey, fitsDocument_of_readTree hpart⟩, hkeyType⟩, hvalueType⟩
  · exact ⟨⟨⟨hkey, hvalue⟩, fitsDocument_of_readTree hpart⟩, hvalueType⟩
  · exact ⟨⟨⟨hkey, hvalue⟩, hkeyType⟩, fitsDocument_of_readTree hpart⟩
  · exact ⟨⟨⟨hkey, hvalue⟩, hkeyType⟩, hvalueType⟩
  · exact ⟨⟨⟨hkey, hvalue⟩, hkeyType⟩, hvalueType⟩

/-- A change that was read from a document is determined by its record, and its trees are canonical
and fit in the levels below that of the record. -/
lemma isRecorded_of_ofDocument {d : Document} (h : ofDocument levels d = .ok e) :
    levels ≠ 0 ∧ e.IsRecorded ∧
      ∀ t ∈ e.trees, t.FitsDocument (levels - 1) ∧ t.canonical = t := by
  obtain ⟨s, hs, h⟩ := Except.bind_eq_ok_iff.1 h
  obtain ⟨action, -, h⟩ := Except.bind_eq_ok_iff.1 h
  have hlevels : levels ≠ 0 := by
    rintro rfl
    exact Document.readRecord_zero hs
  have htrees : ∀ t ∈ s.trees, t.FitsDocument (levels - 1) ∧ t.canonical = t := by
    refine Document.keeps_of_readRecord
      (P := fun s => ∀ t ∈ s.trees, t.FitsDocument (levels - 1) ∧ t.canonical = t) ?_ ?_ hs
    · simp [Draft.trees]
    · exact fun f hf d s s' hP hread => trees_of_read hf hread hP
  split at h
  case h_1 hdraft =>
    cases h
    obtain ⟨hrecorded, hsub⟩ := isRecorded_of_ofDraft hdraft
    exact ⟨hlevels, hrecorded, fun t ht => htrees t (hsub t ht)⟩
  case h_2 => cases h

end Michelson.BigMapChange
