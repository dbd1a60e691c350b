/-
# Every big map has its own name

The names of the items come from labels, from labels around a node, from the keys of maps and from
generated numbers, and any of these may ask for a name that another item has.  Since all names of a
storage value are given out in one run, no two of them are the same, so collecting the numbers of
the big maps by name overwrites none of them.

Aligning records a value only where the way down ends: at a big map that stands as its number, at an
empty option, or at a type without a rule of its own (`recordsEnds`).  Hence every item with the
type of a big map has a number.  The main statement is `bigMapIds_of_namedItems`.
-/
import Michelson.Proofs.NameMap
import Michelson.Proofs.Storage.Align
import Michelson.Storage.BigMaps

namespace Michelson.Storage

open Michelson.Expr

/-! ### Where the way down ends -/

/-- The values that are recorded as items of a type node with a given primitive. -/
inductive IsEnd : Primitive → Expr → Prop
  | bigMap (n : Int) (u : Bool) : IsEnd (.type .bigMap) (literal (.int n) u)
  | none {args : List Expr} {annots : List String} {w u : Bool} :
      IsEnd (.type .option) (app (.data .none) args annots w u)
  | leaf {p : Primitive} {value : Expr} : isStructural p = false → IsEnd p value

/-- All items are ends of the way down. -/
def AllEnds (items : List Aligned) : Prop := ∀ i ∈ items, IsEnd i.prim i.value

variable {source : NameSource} {used : Nat} {type value : Expr} {queue rest : List Expr}
  {p : Primitive} {args : List Expr} {annots : List String} {w u : Bool} {items : List Aligned}

lemma AllEnds.append {others : List Aligned} (h : AllEnds items) (h' : AllEnds others) :
    AllEnds (items ++ others) := by
  intro i hi
  rcases List.mem_append.1 hi with hi | hi
  · exact h i hi
  · exact h' i hi

lemma allEnds_of_alignElements {align : Expr → Shaped (List Aligned)}
    (halign : ∀ x items, align x = .ok items → AllEnds items) {elements : List Expr}
    (h : alignElements align elements = .ok items) : AllEnds items := by
  induction elements generalizing items with
  | nil =>
    cases h
    exact List.forall_mem_nil _
  | cons x rest ih =>
    obtain ⟨here, others, hhere, hothers, rfl⟩ := alignElements_cons_eq_ok_iff.1 h
    exact (halign x here hhere).append (ih hothers)

lemma allEnds_of_alignEntries {align : NameSource → Expr → Shaped (List Aligned)}
    (halign : ∀ source x items, align source x = .ok items → AllEnds items) {position : Nat}
    {entries : List Expr} (h : alignEntries type align position entries = .ok items) :
    AllEnds items := by
  induction entries generalizing position items with
  | nil =>
    cases h
    exact List.forall_mem_nil _
  | cons e rest ih =>
    obtain ⟨key, x, annots, w, u, rfl, here, others, hhere, hothers, rfl⟩ :=
      alignEntries_cons_eq_ok_iff.1 h
    exact (halign _ x here hhere).append (ih hothers)

/-- Aligning the type records nothing but ends, with every queue. -/
def RecordsEnds (type : Expr) : Prop :=
  ∀ source used queue items rest, align source used queue type = .ok (items, rest) → AllEnds items

lemma RecordsEnds.whole (h : RecordsEnds type) (source : NameSource) (x : Expr)
    (items : List Aligned) (hx : alignWhole source type x = .ok items) : AllEnds items :=
  h source 0 _ items [] (alignWhole_eq_ok_iff.1 hx)

lemma allEnds_of_alignAll {types : List Expr} (htypes : ∀ type ∈ types, RecordsEnds type)
    (h : alignAll source used queue types = .ok (items, rest)) : AllEnds items := by
  induction types generalizing used queue items with
  | nil =>
    cases h
    exact List.forall_mem_nil _
  | cons type types ih =>
    obtain ⟨here, mid, hhere, others, rest', hothers, heq⟩ := alignAll_cons_eq_ok_iff.1 h
    cases heq
    exact (htypes type List.mem_cons_self _ _ _ _ _ hhere).append
      (ih (fun a ha => htypes a (List.mem_cons_of_mem type ha)) hothers)

/-- What a slot records, when its arguments record nothing but ends. -/
lemma allEnds_of_takes (hargs : ∀ a ∈ args, RecordsEnds a)
    (h : Takes source (app p args annots w u) value items) : AllEnds items := by
  cases h with
  | bigMap n => exact List.forall_mem_singleton.2 (.bigMap n _)
  | none => exact List.forall_mem_singleton.2 .none
  | some h => exact (hargs _ List.mem_cons_self).whole _ _ _ h
  | left h => exact (hargs _ List.mem_cons_self).whole _ _ _ h
  | right h => exact (hargs _ (List.mem_cons_of_mem _ List.mem_cons_self)).whole _ _ _ h
  | list h => exact allEnds_of_alignElements ((hargs _ List.mem_cons_self).whole _) h
  | map h =>
    exact allEnds_of_alignEntries (hargs _ (List.mem_cons_of_mem _ List.mem_cons_self)).whole h
  | leaf hp => exact List.forall_mem_singleton.2 (.leaf hp)

/-- Aligning records nothing but ends, by induction on the type. -/
theorem recordsEnds (type : Expr) : RecordsEnds type := by
  induction type using Expr.induct with
  | literal l u =>
    intro source used queue items rest h
    cases h
  | seq elements u =>
    intro source used queue items rest h
    cases h
  | app p args annots w u ih =>
    intro source used queue items rest h
    rcases spliced_or_isSlot p with rfl | rfl | hslot
    · match args, ih, h with
      | a :: more, ih, h =>
        rw [align_storage] at h
        exact ih a List.mem_cons_self _ _ _ _ _ h
    · rw [align_pair] at h
      exact allEnds_of_alignAll ih h
    · obtain ⟨value, -, htakes⟩ := (align_slot_eq_ok_iff hslot).1 h
      exact allEnds_of_takes ih htakes

/-! ### Named items -/

/-- The number of an item that is a big map. -/
def Item.mapId? (i : Item) : Option Int := if i.prim = .type .bigMap then i.value.int? else none

lemma namedItems_eq_ok_iff {named : List Item} :
    namedItems type value = .ok named ↔
      ∃ items, alignWhole .own type value = .ok items ∧ nameItems items = named := by
  rw [namedItems, alignValue_eq, Except.bind_eq_ok_iff]
  simp [pure, Except.pure]

lemma map_name_nameItems (items : List Aligned) :
    (nameItems items).map Item.name =
      Names.assign (fun used i => Names.freshOr used i.wanted (defaultName i.prim)) [] items := by
  rw [nameItems, List.map_map]
  exact List.map_snd_zip (Names.length_assign _ _ _).le

/-- The names of items are different from each other and none is empty. -/
lemma nodup_map_name {named : List Item} (h : namedItems type value = .ok named) :
    (named.map Item.name).Nodup ∧ ∀ i ∈ named, i.name ≠ "" := by
  obtain ⟨items, -, rfl⟩ := namedItems_eq_ok_iff.1 h
  constructor
  · rw [map_name_nameItems]
    exact Names.nodup_assign (fun _ _ => Names.freshOr_not_mem _ _ _) _ _
  · intro i hi
    have hname : i.name ∈ (nameItems items).map Item.name := List.mem_map_of_mem hi
    rw [map_name_nameItems] at hname
    obtain ⟨used, wish, heq⟩ := Names.exists_of_mem_assign hname
    rw [heq]
    exact Names.freshOr_ne_empty _ _ _

/-- An item with the type of a big map stands as a number. -/
lemma exists_mapId? {named : List Item} (h : namedItems type value = .ok named) {i : Item}
    (hi : i ∈ named) (hprim : i.prim = .type .bigMap) : ∃ n, i.mapId? = some n := by
  obtain ⟨items, hitems, rfl⟩ := namedItems_eq_ok_iff.1 h
  have hplace : i.place ∈ items.map Aligned.place := by
    rw [← map_place_nameItems]
    exact List.mem_map_of_mem hi
  obtain ⟨a, ha, heq⟩ := List.mem_map.1 hplace
  have hend := (recordsEnds type).whole _ _ _ hitems a ha
  rw [Aligned.place, Item.place, Prod.mk.injEq, Prod.mk.injEq] at heq
  rw [heq.1, heq.2.2, hprim] at hend
  rw [Item.mapId?, if_pos hprim]
  generalize i.value = v at hend
  cases hend with
  | bigMap n u => exact ⟨n, rfl⟩
  | leaf hp => cases hp

/-! ### Numbers by name -/

/-- The number of an item that is a big map, with its name. -/
def Item.namedMapId? (i : Item) : Option (String × Int) := i.mapId?.map fun n => (i.name, n)

lemma mapIds_eq_ok_iff {named : List Item}
    (hnumber : ∀ i ∈ named, i.prim = .type .bigMap → ∃ n, i.mapId? = some n)
    (ids : List (String × Int)) :
    mapIds named = .ok ids ↔ (∀ i ∈ named, ∀ n, i.mapId? = some n → isInt64 n) ∧
      ids = named.filterMap Item.namedMapId? := by
  induction named generalizing ids with
  | nil =>
    rw [mapIds, Except.ok.injEq, eq_comm]
    exact (and_iff_right (List.forall_mem_nil _)).symm
  | cons i named ih =>
    have hrest := ih fun a ha => hnumber a (List.mem_cons_of_mem i ha)
    rw [mapIds, List.forall_mem_cons, List.filterMap_cons]
    by_cases hprim : i.prim = .type .bigMap
    · obtain ⟨n, hn⟩ := hnumber i List.mem_cons_self hprim
      have hint : i.value.int? = some n := by rwa [Item.mapId?, if_pos hprim] at hn
      have hpair : i.namedMapId? = some (i.name, n) := by rw [Item.namedMapId?, hn, Option.map_some]
      rw [if_pos hprim, mapId, hint, hpair]
      constructor
      · intro h
        obtain ⟨id, hid, h⟩ := Except.bind_eq_ok_iff.1 h
        obtain ⟨others, hothers, h⟩ := Except.bind_eq_ok_iff.1 h
        obtain ⟨hfit, rfl⟩ := (hrest others).1 hothers
        dsimp only at hid
        split at hid
        · next hn64 =>
          cases hid
          cases h
          refine ⟨⟨fun k hk => ?_, hfit⟩, rfl⟩
          rwa [← Option.some.inj (hn.symm.trans hk)]
        · cases hid
      · rintro ⟨⟨hn64, hfit⟩, rfl⟩
        dsimp only
        rw [if_pos (hn64 n hn), Except.ok_bind, (hrest _).2 ⟨hfit, rfl⟩]
        rfl
    · have hnone : i.mapId? = none := if_neg hprim
      have hpair : i.namedMapId? = none := by rw [Item.namedMapId?, hnone, Option.map_none]
      rw [if_neg hprim, hrest, hpair, hnone]
      exact and_congr_left fun _ => (and_iff_right fun n hn => nomatch hn).symm

lemma bigMapIds_eq_ok_iff {named : List Item} {ids : NameMap Int}
    (h : namedItems type value = .ok named) :
    bigMapIds type value = .ok ids ↔ (∀ i ∈ named, ∀ n, i.mapId? = some n → isInt64 n) ∧
      ids = NameMap.ofList (named.filterMap Item.namedMapId?) := by
  have hids := mapIds_eq_ok_iff fun i hi => exists_mapId? h hi
  rw [bigMapIds, h, Except.ok_bind, Except.bind_eq_ok_iff]
  constructor
  · rintro ⟨pairs, hpairs, heq⟩
    obtain ⟨hfit, rfl⟩ := (hids pairs).1 hpairs
    cases heq
    exact ⟨hfit, rfl⟩
  · rintro ⟨hfit, rfl⟩
    exact ⟨_, (hids _).2 ⟨hfit, rfl⟩, rfl⟩

/-- The names of the big maps are some of the names of all items. -/
lemma nodup_map_fst_namedMapId? {named : List Item} (h : (named.map Item.name).Nodup) :
    ((named.filterMap Item.namedMapId?).map Prod.fst).Nodup := by
  have hsublist : ((named.filterMap Item.namedMapId?).map Prod.fst).Sublist
      (named.map Item.name) := by
    induction named with
    | nil => exact List.Sublist.refl _
    | cons i named ih =>
      rw [List.map_cons, List.nodup_cons] at h
      rw [List.filterMap_cons, List.map_cons]
      cases hn : i.mapId? with
      | none =>
        rw [Item.namedMapId?, hn]
        exact (ih h.2).cons _
      | some n =>
        rw [Item.namedMapId?, hn]
        exact (ih h.2).cons_cons _
  exact hsublist.nodup h

/-- The number of a big map is found under its name. -/
lemma find?_bigMapIds {named : List Item} {ids : NameMap Int}
    (h : namedItems type value = .ok named) (hids : bigMapIds type value = .ok ids) {i : Item}
    (hi : i ∈ named) {n : Int} (hn : i.mapId? = some n) : NameMap.find? i.name ids = some n := by
  obtain ⟨-, rfl⟩ := (bigMapIds_eq_ok_iff h).1 hids
  refine NameMap.find?_ofList (nodup_map_fst_namedMapId? (nodup_map_name h).1) ?_
  exact List.mem_filterMap.2 ⟨i, hi, by rw [Item.namedMapId?, hn, Option.map_some]⟩

/-- What is found under a name is the number of a big map with this name. -/
lemma exists_of_find?_bigMapIds {named : List Item} {ids : NameMap Int} {name : String} {n : Int}
    (h : namedItems type value = .ok named) (hids : bigMapIds type value = .ok ids)
    (hfind : NameMap.find? name ids = some n) :
    ∃ i ∈ named, i.name = name ∧ i.mapId? = some n := by
  obtain ⟨-, rfl⟩ := (bigMapIds_eq_ok_iff h).1 hids
  have hmem := NameMap.mem_of_mem_ofList (NameMap.mem_of_find? hfind)
  obtain ⟨i, hi, hnamed⟩ := List.mem_filterMap.1 hmem
  obtain ⟨n', hn, heq⟩ := Option.map_eq_some_iff.1 hnamed
  cases heq
  exact ⟨i, hi, rfl, hn⟩

/-- The items of a storage value have names that are not empty and different from each other.  Every
one with the type of a big map has a number, and the big maps can be collected exactly when all
these numbers fit 64 bits.  What is collected has one entry for each of them, with its number under
its name. -/
theorem bigMapIds_of_namedItems (type value : Expr) :
    (∀ named, namedItems type value = .ok named →
      (named.map Item.name).Nodup ∧ (∀ i ∈ named, i.name ≠ "") ∧
        ∀ i ∈ named, i.prim = .type .bigMap → ∃ n, i.mapId? = some n) ∧
      ((∃ ids, bigMapIds type value = .ok ids) ↔ ∃ named, namedItems type value = .ok named ∧
        ∀ i ∈ named, ∀ n, i.mapId? = some n → isInt64 n) ∧
      ∀ named ids, namedItems type value = .ok named → bigMapIds type value = .ok ids →
        ids.Perm (named.filterMap fun i => i.mapId?.map fun n => (i.name, n)) ∧
          ∀ i ∈ named, ∀ n, i.mapId? = some n → NameMap.find? i.name ids = some n := by
  refine ⟨fun named h => ?_, ⟨?_, ?_⟩, fun named ids h hids => ?_⟩
  · obtain ⟨hnodup, hempty⟩ := nodup_map_name h
    exact ⟨hnodup, hempty, fun i => exists_mapId? h⟩
  · rintro ⟨ids, hids⟩
    obtain ⟨named, h, -⟩ := Except.bind_eq_ok_iff.1 hids
    exact ⟨named, h, ((bigMapIds_eq_ok_iff h).1 hids).1⟩
  · rintro ⟨named, h, hfit⟩
    exact ⟨_, (bigMapIds_eq_ok_iff h).2 ⟨hfit, rfl⟩⟩
  · refine ⟨?_, fun i hi n hn => find?_bigMapIds h hids hi hn⟩
    obtain ⟨-, rfl⟩ := (bigMapIds_eq_ok_iff h).1 hids
    exact NameMap.perm_ofList (nodup_map_fst_namedMapId? (nodup_map_name h).1)

/-- Two big maps of one label, before a third with the very label that the second one is given
instead: none of the numbers is lost. -/
theorem bigMapIds_of_namedItems_clash :
    let ledger (annot : String) : Expr :=
      app (.type .bigMap) [type0 .address, type0 .nat] [annot] false false
    let type := apply (.type .pair) [ledger "%a", ledger "%a", ledger "%a_0"]
    let value := apply (.data .pair) [int 5, int 6, int 7]
    ∃ named ids, namedItems type value = .ok named ∧ bigMapIds type value = .ok ids ∧
      ids.Perm [("a", 5), ("a_0", 6), ("a_0_0", 7)] ∧ NameMap.find? "a_0" ids = some 6 := by
  intro ledger type value
  let item (name annot : String) (n : Int) : Item := ⟨name, .type .bigMap, ledger annot, int n⟩
  have hitems : namedItems type value =
      .ok [item "a" "%a" 5, item "a_0" "%a" 6, item "a_0_0" "%a_0" 7] := by rfl
  obtain ⟨-, hok, hids⟩ := bigMapIds_of_namedItems type value
  obtain ⟨ids, h⟩ := hok.2 ⟨_, hitems, by decide⟩
  obtain ⟨hperm, hfind⟩ := hids _ ids hitems h
  exact ⟨_, ids, hitems, h, hperm, hfind (item "a_0" "%a" 6) (by simp) 6 rfl⟩

end Michelson.Storage
