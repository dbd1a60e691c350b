/-
# Numbers and types of big maps under the same names

The big maps of a storage value are found by aligning it, those of a storage type by a walk over the
type alone, and each of the two gives out its own names.  A caller who joins numbers and types by
name relies on the names being the same.

They are for types without lists and maps (`IsPlain`) whose big maps have labels, all labels outside
big maps being different and none looking like a number behind a base.  Every label then stands on
one node, so nothing takes the name of a big map before it, and both sides name it after its label.

The main statement is `find?_declaredBigMaps_of_bigMapIds`.
-/
import Michelson.Proofs.Storage.Labels

namespace Michelson.Storage

open Michelson.Expr

/-! ### Plain types -/

/-- The types that are made of pairs, options, choices, big maps and types without arguments. -/
inductive IsPlain : Expr → Prop
  | holder {p : Primitive} {args : List Expr} {annots : List String} {w u : Bool} :
      holdsOnce p → (∀ a ∈ args, IsPlain a) → IsPlain (app p args annots w u)
  | bigMap {args : List Expr} {annots : List String} {w u : Bool} :
      IsPlain (app (.type .bigMap) args annots w u)
  | leaf {p : Primitive} {annots : List String} {w u : Bool} : IsPlain (app p [] annots w u)

variable {type value t : Expr}

namespace IsPlain

/-- Walks that enter pairs, options and choices and stay out of big maps meet the same nodes of a
plain type. -/
lemma visited_eq (h : IsPlain type) {skip : Expr → Bool}
    (hholder : ∀ p args annots w u, holdsOnce p → skip (app p args annots w u) = false)
    (hbigMap : ∀ args annots w u, skip (app (.type .bigMap) args annots w u) = true) :
    type.visited skip = outerNodes type := by
  induction h with
  | @holder p args annots w u honce _ ih =>
    rw [visited_eq_cons, hholder p args annots w u honce, outerNodes_eq,
      not_applies_of_holdsOnce honce]
    exact congrArg _ (List.flatMap_congr ih)
  | @bigMap args annots w u =>
    rw [visited_eq_cons, hbigMap args annots w u, outerNodes_of_bigMap rfl]
    rfl
  | @leaf p annots w u =>
    rw [visited_eq_cons, outerNodes_eq, Expr.args, List.flatMap_nil, List.flatMap_nil, ite_self,
      ite_self]

lemma openNodes_eq (h : IsPlain type) : openNodes type = outerNodes type := by
  refine h.visited_eq (fun p args annots w u honce => ?_) fun args annots w u => rfl
  rw [prim?, Option.any_some, honce, Bool.not_true]

lemma visited_isClosedType (h : IsPlain type) :
    type.visited isClosedType = outerNodes type := by
  refine h.visited_eq (fun p args annots w u honce => ?_) fun args annots w u => rfl
  rcases holdsOnce_iff.1 honce with rfl | rfl | rfl <;> rfl

lemma of_mem_outerNodes (h : IsPlain type) (ht : t ∈ outerNodes type) : IsPlain t := by
  induction h with
  | holder honce hargs ih =>
    rcases (mem_outerNodes_iff (not_applies_of_holdsOnce honce)).1 ht with rfl | ⟨a, ha, ht⟩
    · exact .holder honce hargs
    · exact ih a ha ht
  | bigMap =>
    rw [outerNodes_of_bigMap rfl] at ht
    rw [List.mem_singleton.1 ht]
    exact .bigMap
  | leaf =>
    rw [outerNodes_eq, Expr.args, List.flatMap_nil, ite_self] at ht
    rw [List.mem_singleton.1 ht]
    exact .leaf

/-- No entry of a map is around the values of a plain type. -/
lemma entryName?_around (h : IsPlain type) {l : Located} (hl : l ∈ located type value) :
    l.around.findSome? Surrounding.entryName? = none := by
  refine List.findSome?_eq_none_iff.2 fun s hs => ?_
  obtain ⟨t, ht, hsurrounds⟩ := (surrounds_of_mem_around hl hs).resolve_left List.not_mem_nil
  have hplain := h.of_mem_outerNodes ht
  cases hsurrounds with
  | option | or | list => rfl
  | map =>
    cases hplain with
    | holder honce => cases honce

lemma declaredBigMap?_eq (h : IsPlain t) :
    declaredBigMap? t = if t.applies (.type .bigMap) then some (t.label?, t) else none := by
  cases h with
  | holder honce => rcases holdsOnce_iff.1 honce with rfl | rfl | rfl <;> rfl
  | bigMap => rfl
  | @leaf p annots w u =>
    unfold declaredBigMap?
    split
    · next hprim =>
      rw [if_pos (applies_iff.2 hprim)]
    -- a map and a list without arguments hold nothing
    · next hprim =>
      cases hprim
      rfl
    · next hprim =>
      cases hprim
      rfl
    · next hprim _ _ =>
      exact (if_neg fun happlies => hprim (applies_iff.1 happlies)).symm

end IsPlain

/-! ### The declared big maps -/

/-- The big maps of a type that are in no other big map. -/
def bigMapNodes (type : Expr) : List Expr :=
  (outerNodes type).filter fun t => t.applies (.type .bigMap)

/-- In a plain type whose big maps have different labels every big map is declared under its label.
-/
lemma find?_declaredBigMaps (h : IsPlain type)
    (hlabelled : ∀ t ∈ outerNodes type, t.applies (.type .bigMap) → ∃ name, t.label? = some name)
    (hdistinct : (outerLabels type).Nodup) (ht : t ∈ outerNodes type)
    (hbigMap : t.applies (.type .bigMap)) {name : String} (hlabel : t.label? = some name) :
    NameMap.find? name (declaredBigMaps type) = some t := by
  have hfound : (type.visited isClosedType).filterMap declaredBigMap? =
      (bigMapNodes type).map fun t => (t.label?, t) := by
    rw [h.visited_isClosedType, bigMapNodes, ← List.filterMap_eq_map, List.filterMap_filter]
    refine List.filterMap_congr fun t ht => ?_
    rw [(h.of_mem_outerNodes ht).declaredBigMap?_eq]
    rfl
  have hnodup : ((bigMapNodes type).filterMap label?).Nodup :=
    (List.filter_sublist.filterMap label?).nodup hdistinct
  have hwish : ∀ t ∈ bigMapNodes type, ∃ name, t.label? = some name ∧ name ≠ "" ∧
      name ∉ ([] : List String) := by
    intro t ht
    obtain ⟨houter, happlies⟩ := List.mem_filter.1 ht
    obtain ⟨name, hname⟩ := hlabelled t houter happlies
    exact ⟨name, hname, label?_ne_empty hname, List.not_mem_nil⟩
  have hnames : (bigMapNodes type).filterMap label? =
      (bigMapNodes type).map fun t => t.label?.getD bigMapBase := by
    refine List.filterMap_eq_map_iff_forall_eq_some.2 fun t ht => ?_
    obtain ⟨name, hname, -⟩ := hwish t ht
    rw [hname, Option.getD_some]
  rw [declaredBigMaps, hfound, Names.assign_map, Names.assign_freshOr hwish hnodup, List.map_map,
    hnames, List.zip_map']
  refine NameMap.find?_ofList ?_ (List.mem_map.2 ⟨t, List.mem_filter.2 ⟨ht, hbigMap⟩, ?_⟩)
  · rw [List.map_map]
    exact hnames ▸ hnodup
  · rw [hlabel, Option.getD_some]
    rfl

/-! ### Numbers and types -/

section

variable {items : List Item} {ids : NameMap Int} {i : Nat} {item : Item} {name : String}

/-- In a plain type a big map with a label is named after it: no entry is around the items before
it, and no number makes a label. -/
lemma name_of_label (h : IsPlain type) (hdistinct : (outerLabels type).Nodup)
    (hnumber : ∀ base n, name ≠ Names.numbered base n) (hnamed : namedItems type value = .ok items)
    (hitem : items[i]? = some item) (hbigMap : item.type.applies (.type .bigMap))
    (hlabel : item.type.label? = some name) : item.name = name := by
  have hnode : item.type ∈ openNodes type := by
    rw [h.openNodes_eq]
    exact (item_type_mem_outerNodes hnamed hitem).1
  have hstands := standsOnce_of_count_le hnode hlabel (List.nodup_iff_count_le_one.1 hdistinct name)
  refine (hstands.name_spec hbigMap hlabel hnamed hitem rfl).1 fun hused => ?_
  obtain ⟨other, hmem, hname⟩ := List.mem_map.1 hused
  obtain ⟨j, hlt, hother⟩ := List.mem_take_iff_getElem.1 hmem
  have hother : items[j]? = some other := List.getElem?_eq_some_iff.2 ⟨by omega, hother⟩
  obtain ⟨l, hl, -⟩ := exists_located hnamed hother
  rcases hstands.entry_or_isNumbered hbigMap hlabel hnamed hitem rfl (by omega) hother hl hname with
    hentry | ⟨n, heq, -⟩
  · rw [h.entryName?_around (List.mem_of_getElem? hl)] at hentry
    cases hentry
  · exact hnumber _ n heq

/-- Take a type of pairs, options, choices, big maps and types without arguments.  If its big maps
have labels, the labels outside big maps are all different and none is a number behind a base, then
every big map that is found in a value under some name is declared under this name, and the declared
type is the node that the number was aligned with. -/
theorem find?_declaredBigMaps_of_bigMapIds (hplain : IsPlain type)
    (hlabelled : ∀ t ∈ outerNodes type, t.applies (.type .bigMap) → ∃ name, t.label? = some name)
    (hdistinct : (outerLabels type).Nodup)
    (hnumber : ∀ name ∈ outerLabels type, ∀ base n, name ≠ Names.numbered base n)
    (hids : bigMapIds type value = .ok ids) :
    ∃ items, namedItems type value = .ok items ∧
      ∀ name id, NameMap.find? name ids = some id →
        ∃ item ∈ items, item.name = name ∧ item.prim = .type .bigMap ∧
          item.value.int? = some id ∧ item.type ∈ outerNodes type ∧
          item.type.label? = some name ∧
          NameMap.find? name (declaredBigMaps type) = some item.type := by
  obtain ⟨items, hnamed, -⟩ := Except.bind_eq_ok_iff.1 hids
  refine ⟨items, hnamed, fun name id hfind => ?_⟩
  obtain ⟨item, hmem, rfl, hid⟩ := exists_of_find?_bigMapIds hnamed hids hfind
  obtain ⟨hprim, hint⟩ : item.prim = .type .bigMap ∧ item.value.int? = some id := by
    rw [Item.mapId?] at hid
    split at hid
    · next hprim => exact ⟨hprim, hid⟩
    · cases hid
  obtain ⟨i, hitem⟩ := List.getElem?_of_mem hmem
  obtain ⟨houter, happlies⟩ := item_type_mem_outerNodes hnamed hitem
  have hbigMap : item.type.applies (.type .bigMap) := applies_iff.2 (hprim ▸ happlies)
  obtain ⟨label, hlabel⟩ := hlabelled item.type houter hbigMap
  obtain rfl := name_of_label hplain hdistinct (hnumber label (mem_outerLabels houter hlabel))
    hnamed hitem hbigMap hlabel
  exact ⟨item, hmem, rfl, hprim, hint, houter, hlabel,
    find?_declaredBigMaps hplain hlabelled hdistinct houter hbigMap hlabel⟩

end

/-- Two big maps, one of them inside an option. -/
theorem find?_declaredBigMaps_of_bigMapIds_option :
    let ledger : Expr := app (.type .bigMap) [type0 .address, type0 .nat] ["%ledger"] false false
    let notes : Expr := app (.type .bigMap) [type0 .string, type0 .bytes] ["%notes"] false false
    let type := type2 .pair ledger (type1 .option notes)
    let value := data2 .pair (int 5) (data1 .some (int 7))
    IsPlain type ∧ (outerLabels type).Nodup ∧
      (∀ name ∈ outerLabels type, ∀ base n, name ≠ Names.numbered base n) ∧
      ∃ ids, bigMapIds type value = .ok ids ∧ NameMap.find? "notes" ids = some 7 ∧
        ∃ t, NameMap.find? "notes" (declaredBigMaps type) = some t := by
  intro ledger notes type value
  have hplain : IsPlain type := by
    refine .holder rfl (List.forall_mem_cons.2 ⟨.bigMap, List.forall_mem_singleton.2 ?_⟩)
    exact .holder rfl (List.forall_mem_singleton.2 .bigMap)
  have houter : outerNodes type = [type, ledger, type1 .option notes, notes] := by rfl
  have hlabels : outerLabels type = ["ledger", "notes"] := by rfl
  have hlabelled : ∀ t ∈ outerNodes type, t.applies (.type .bigMap) →
      ∃ name, t.label? = some name := by
    rw [houter]
    simp only [List.forall_mem_cons, List.not_mem_nil, false_imp_iff, implies_true, and_true]
    exact ⟨nofun, fun _ => ⟨"ledger", rfl⟩, nofun, fun _ => ⟨"notes", rfl⟩⟩
  have hdistinct : (outerLabels type).Nodup := by
    rw [hlabels]
    decide
  have hnumber : ∀ name ∈ outerLabels type, ∀ base n, name ≠ Names.numbered base n := by
    rw [hlabels]
    rintro name hmem base n rfl
    have hmark : '_' ∈ (Names.numbered base n).toList := by simp [Names.numbered]
    generalize Names.numbered base n = name at hmem hmark
    revert name
    decide
  have hids : bigMapIds type value = .ok [("ledger", 5), ("notes", 7)] := by cbv
  obtain ⟨items, -, hspec⟩ :=
    find?_declaredBigMaps_of_bigMapIds hplain hlabelled hdistinct hnumber hids
  obtain ⟨item, -, -, -, -, -, -, hdeclared⟩ := hspec "notes" 7 rfl
  exact ⟨hplain, hdistinct, hnumber, _, hids, rfl, item.type, hdeclared⟩

end Michelson.Storage
