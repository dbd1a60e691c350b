/-
# Changes of big maps there and back

A list of changes has two forms, bytes and an array of records.  Both give back the changes they
were written from; the bytes lose the hash of the key, and neither keeps how a tree was come by.  A
list that was read from a document, whatever else was in it, is read again from its own records as
the very same list.

The main statement is `changes_read_back`.
-/
import Michelson.Proofs.BigMapChange.Binary
import Michelson.Proofs.BigMapChange.Record

namespace Michelson.BigMapChange

variable {changes : List BigMapChange} {levels : Nat}

/-- The records of a list of changes. -/
def records (changes : List BigMapChange) : Json := .array (changes.map toJson)

/-- An object with its members sorted; other values stay as they are. -/
def sortMembers : Json → Json
  | .object ms => .ofMembers ms
  | j => j

/-- Changes that records determine are read back from their records, with their trees in canonical
form.  The members of the records may be sorted, as they are in the value of a document. -/
lemma readAll_records (hrecorded : ∀ e ∈ changes, e.IsRecorded)
    (htrees : ∀ e ∈ changes, ∀ t ∈ e.trees, t.IsWellAnnotated ∧ t.height ≤ Expr.defaultLimit)
    (hnesting : (records changes).nesting ≤ levels) :
    readAll levels (Document.ofJson (records changes)) =
        .ok (changes.map (mapTrees Expr.canonical)) ∧
      ∃ j, (Document.ofJson (records changes)).value? levels = some j ∧
        readAll levels (Document.ofJson j) = .ok (changes.map (mapTrees Expr.canonical)) := by
  obtain ⟨below, rfl, hbelow⟩ := Json.nesting_array_le_iff.1 hnesting
  have hread : ∀ e ∈ changes,
      ofDocument below (Document.ofJson e.toJson) = .ok (e.mapTrees Expr.canonical) ∧
      (Document.ofJson e.toJson).value? below = some (sortMembers e.toJson) ∧
      ofDocument below (Document.ofJson (sortMembers e.toJson)) =
        .ok (e.mapTrees Expr.canonical) := by
    intro e he
    obtain ⟨ms, hms, hmembers⟩ := e.exists_members
    have hle := hbelow e.toJson (List.mem_map_of_mem he)
    rw [hms] at hle ⊢
    obtain ⟨rest, rfl, hrest⟩ := hmembers.nesting_le_iff.1 hle
    have hfits : ∀ t ∈ e.trees, t.FitsDocument rest := fun t ht =>
      ⟨(htrees e he t ht).1, (htrees e he t ht).2, hrest t ht⟩
    have hsorted := hmembers.of_perm (NameMap.perm_ofList hmembers.nodup)
    exact ⟨ofDocument_of_hasMembers hmembers (hrecorded e he) hfits, hmembers.value?_eq hrest,
      ofDocument_of_hasMembers hsorted (hrecorded e he) hfits⟩
  have hlist : ∀ f : BigMapChange → Json,
      (∀ e ∈ changes, ofDocument below (Document.ofJson (f e)) = .ok (e.mapTrees Expr.canonical)) →
      readAll (below + 1) (Document.ofJson (.array (changes.map f))) =
        .ok (changes.map (mapTrees Expr.canonical)) := by
    intro f hf
    rw [readAll, Document.readList_ofJson, List.map_map, List.mapM_map]
    exact Except.mapM_eq_ok_of_forall hf
  have hvalue : ∀ j ∈ changes.map toJson,
      (Document.ofJson j).value? below = some (sortMembers j) := by
    intro j hj
    obtain ⟨e, he, rfl⟩ := List.mem_map.1 hj
    exact (hread e he).2.1
  refine ⟨hlist toJson fun e he => (hread e he).1, _, Document.value?_array_of_forall hvalue, ?_⟩
  rw [List.map_map]
  exact hlist _ fun e he => (hread e he).2.2

/-- What was read from a document is determined by its records and canonical, and its records nest
no deeper than the document. -/
lemma isRecorded_of_readAll {d : Document} (h : readAll levels d = .ok changes) :
    (∀ e ∈ changes, e.IsRecorded) ∧
      (∀ e ∈ changes, ∀ t ∈ e.trees,
        (t.IsWellAnnotated ∧ t.height ≤ Expr.defaultLimit) ∧ t.canonical = t) ∧
      (records changes).nesting ≤ levels := by
  obtain ⟨hlevels, hread⟩ := Document.exists_of_mem_readList h
  refine ⟨fun e he => ?_, fun e he t ht => ?_, ?_⟩
  · obtain ⟨d, hd⟩ := hread e he
    exact (isRecorded_of_ofDocument hd).2.1
  · obtain ⟨d, hd⟩ := hread e he
    obtain ⟨hfits, hcanonical⟩ := (isRecorded_of_ofDocument hd).2.2 t ht
    exact ⟨⟨hfits.annots, hfits.height_le⟩, hcanonical⟩
  · refine Json.nesting_array_le_iff.2 ⟨levels - 1, by omega, fun j hj => ?_⟩
    obtain ⟨e, he, rfl⟩ := List.mem_map.1 hj
    obtain ⟨d, hd⟩ := hread e he
    obtain ⟨hbelow, -, hfits⟩ := isRecorded_of_ofDocument hd
    obtain ⟨ms, hms, hmembers⟩ := e.exists_members
    rw [hms, hmembers.nesting_le_iff]
    exact ⟨levels - 1 - 1, by omega, fun t ht => (hfits t ht).1.nesting_le⟩

/-- Changes that were built from trees lower than the limit, with annotations that can be written,
are written as bytes exactly when the numbers of their maps and the lengths in their trees fit their
words.  The bytes are read back as the same changes without the hashes of their keys.  The records
are read back as the same changes, hashes included, in all levels that are enough for them, be it
from the records as they are written or from their value with its members sorted.

Changes that were read from a document, whatever it was, are the very changes that their records are
read as in the same levels or more. -/
theorem changes_read_back :
    (∀ changes : List BigMapChange, (∀ e ∈ changes, e.IsBuilt) →
      (∀ e ∈ changes, ∀ t ∈ e.trees,
        t.height < 1024 ∧ ∀ n ∈ t.nodes, ∀ a ∈ n.annots, a ≠ "" ∧ ' ' ∉ a.toList) →
      ((∃ b, encodeAll changes = .ok b) ↔ (∀ e ∈ changes, isInt32 e.id) ∧
        ∀ e ∈ changes, ∀ t ∈ e.trees, ∀ n ∈ t.nodes, ∀ p ∈ n.payloads, p.length < 2 ^ 32) ∧
      (∀ b, encodeAll changes = .ok b →
        decodeAll b = .ok (changes.map fun e => (e.mapTrees Expr.normal).dropKeyHash)) ∧
      (∀ levels, (records changes).nesting ≤ levels →
        readAll levels (Document.ofJson (records changes)) =
            .ok (changes.map (mapTrees Expr.canonical)) ∧
          ∃ j, (Document.ofJson (records changes)).value? levels = some j ∧
            readAll levels (Document.ofJson j) = .ok (changes.map (mapTrees Expr.canonical))) ∧
      ∀ e ∈ changes, (e.mapTrees Expr.normal).dropKeyHash.same e.dropKeyHash ∧
        (e.mapTrees Expr.canonical).same e) ∧
    ∀ levels d changes, readAll levels d = .ok changes → ∀ levels', levels ≤ levels' →
      readAll levels' (Document.ofJson (records changes)) = .ok changes ∧
        ∃ j, (Document.ofJson (records changes)).value? levels' = some j ∧
          readAll levels' (Document.ofJson j) = .ok changes := by
  constructor
  · intro changes hbuilt htrees
    have hwell : ∀ e ∈ changes, ∀ t ∈ e.trees, t.IsWellAnnotated := by
      intro e he t ht n hn a ha
      exact isAnnot_iff.2 ((htrees e he t ht).2 n hn a ha)
    have hheight : ∀ e ∈ changes, ∀ t ∈ e.trees, t.height < Expr.defaultLimit :=
      fun e he t ht => (htrees e he t ht).1
    refine ⟨?_, ?_, ?_, ?_⟩
    · rw [encodeAll_isOk_iff, ← forall₂_and]
      refine forall₂_congr fun e he => ?_
      rw [(hbuilt e he).encode_isOk_iff]
      refine and_congr_right fun _ => forall₂_congr fun t ht => ?_
      exact ⟨fun hspell => hspell.payloads, fun hshort => ⟨hwell e he t ht, hshort⟩⟩
    · exact fun b hb => decodeAll_of_encodeAll hbuilt hheight hb
    · intro levels hnesting
      exact readAll_records (fun e he => (hbuilt e he).isRecorded)
        (fun e he t ht => ⟨hwell e he t ht, (hheight e he t ht).le⟩) hnesting
    · exact fun e he => ⟨same_mapTrees Expr.same_normal e.dropKeyHash,
        same_mapTrees Expr.same_canonical e⟩
  · intro levels d changes h levels' hle
    obtain ⟨hrecorded, htrees, hnesting⟩ := isRecorded_of_readAll h
    have hself : changes.map (mapTrees Expr.canonical) = changes := by
      refine (List.map_congr_left fun e he => ?_).trans (List.map_id changes)
      exact mapTrees_eq_self fun t ht => (htrees e he t ht).2
    have hread := readAll_records hrecorded (fun e he t ht => (htrees e he t ht).1)
      (hnesting.trans hle)
    rwa [hself] at hread

/-- An update with a hash whose value was unpacked, an allocation of a map with a negative number, a
copy and the removal of a whole map.  The update in the document, given as an object and with no
value, is a removal, and its number has a plus sign and a leading zero. -/
theorem changes_read_back_four :
    let type := Expr.app (.type .bytes) [] ["%v"] false false
    let built := [(update 515 (.string "k") (.seq [.bytes [1]] true)).addKeyHash "h",
      alloc (-3) (.type0 .nat) type, copy 1 2, remove 9 none]
    let read := [(update 515 (.string "k") (.list [.bytes [1]])).addKeyHash "h",
      alloc (-3) (.type0 .nat) type, copy 1 2, remove 9 none]
    let d := Document.array [.object [("note", .null), ("big_map", .text (some "+07")),
      ("key", .object [("int", .text (some "-00"))] true),
      ("action", .object [("update", .null)] true)] true] true
    (∃ b, encodeAll built = .ok b ∧ decodeAll b = .ok (read.map dropKeyHash)) ∧
      readAll 4 (Document.ofJson (records built)) = .ok read ∧
      readAll 3 d = .ok [remove 7 (some (.int 0))] ∧
      readAll 3 (Document.ofJson (records [remove 7 (some (.int 0))])) =
        .ok [remove 7 (some (.int 0))] := by
  intro type built read d
  obtain ⟨hwritten, hdocument⟩ := changes_read_back
  have hbuilt : ∀ e ∈ built, e.IsBuilt := by
    simp only [built, List.forall_mem_cons]
    exact ⟨.addKeyHash "h" _ (.update 515 _ _ rfl), .alloc (-3) _ _ rfl, .copy 1 2 rfl rfl,
      .remove 9 none rfl, by simp⟩
  have htrees : ∀ e ∈ built, ∀ t ∈ e.trees,
      t.height < 1024 ∧ ∀ n ∈ t.nodes, ∀ a ∈ n.annots, a ≠ "" ∧ ' ' ∉ a.toList := by
    decide +kernel
  have hfits : (∀ e ∈ built, isInt32 e.id) ∧
      ∀ e ∈ built, ∀ t ∈ e.trees, ∀ n ∈ t.nodes, ∀ p ∈ n.payloads, p.length < 2 ^ 32 := by
    decide +kernel
  obtain ⟨hencode, hbytes, hrecords, -⟩ := hwritten built hbuilt htrees
  obtain ⟨b, hb⟩ := hencode.2 hfits
  have hnesting : (records built).nesting ≤ 4 := by decide +kernel
  have hd : readAll 3 d = .ok [remove 7 (some (.int 0))] := by rfl
  exact ⟨⟨b, hb, hbytes b hb⟩, (hrecords 4 hnesting).1, hd,
    (hdocument 3 d _ hd 3 (Nat.le_refl 3)).1⟩

end Michelson.BigMapChange
