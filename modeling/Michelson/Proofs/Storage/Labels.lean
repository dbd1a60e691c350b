/-
# A label that stands on one node

A big map is looked for by the label that its type declares, but names are given out in one run over
all that is aligned, and what comes first takes the name.  So the question is what can take the name
of a label before the big map that has it.

Suppose the label stands on one node of the type, and only pairs, options and choices are above this
node (`StandsOnce`).  These hold every part at most once and name nothing by themselves, so at most
one value is located at the node, and its base is the label.  Every other value has the label for a
base only from an entry of a map around it (`entry_or_label_of_base?`).  Hence the name is lost to
nothing but the name of an entry or a number that was put behind some other base.

The main statement is `find?_bigMapIds_of_label_once`.
-/
import Michelson.Proofs.Storage.Nodes

namespace Michelson.Storage

open Michelson.Expr

variable {type node t : Expr} {name : String} {l : Located} {p : Primitive} {args : List Expr}
  {annots : List String} {w u : Bool} {around : List Surrounding} {queue : List Expr}

/-! ### A label on one node -/

/-- The name is the label of `node` and of no other node outside big maps, and only pairs, options
and choices are above `node`. -/
inductive StandsOnce (name : String) (node : Expr) : Expr → Prop
  | here : StandsOnce name node node
  | within {p : Primitive} {before behind : List Expr} {a : Expr} {annots : List String}
      {w u : Bool} : holdsOnce p →
      (app p (before ++ a :: behind) annots w u).label? ≠ some name →
      (∀ t ∈ before ++ behind, name ∉ outerLabels t) → StandsOnce name node a →
      StandsOnce name node (app p (before ++ a :: behind) annots w u)

lemma standsOnce_of_count_le (hnode : node ∈ openNodes type) (hlabel : node.label? = some name)
    (hcount : (outerLabels type).count name ≤ 1) : StandsOnce name node type := by
  induction type using inductArgs with
  | node type ih =>
    rcases mem_openNodes_iff.1 hnode with rfl | ⟨honce, a, ha, hopen⟩
    · exact .here
    · match type, honce with
      | .app p args annots w u, honce =>
        obtain ⟨before, behind, rfl⟩ := List.append_of_mem ha
        have hmem : name ∈ outerLabels a :=
          mem_outerLabels ((openNodes_sublist a).subset hopen) hlabel
        -- one of the labels is found in `a`, so there is none left for the others
        have ha_pos := List.count_pos_iff.2 hmem
        rw [outerLabels_eq (not_applies_of_holdsOnce honce), Expr.args, List.flatMap_append,
          List.flatMap_cons, List.count_append, List.count_append, List.count_append] at hcount
        refine .within honce (fun hself => ?_) (fun t ht hname => ?_) (ih a ha hopen (by omega))
        · rw [hself, Option.toList_some, List.count_singleton_self] at hcount
          omega
        · rcases List.mem_append.1 ht with ht | ht
          all_goals
            have hpos := List.count_pos_iff.2 (List.mem_flatMap.2 ⟨t, ht, hname⟩)
            omega

namespace StandsOnce

/-- No other node has the label. -/
lemma eq_node (h : StandsOnce name node type) (hbigMap : node.applies (.type .bigMap))
    (ht : t ∈ outerNodes type) (hlabel : t.label? = some name) : t = node := by
  induction h with
  | here =>
    rw [outerNodes_of_bigMap hbigMap] at ht
    exact List.mem_singleton.1 ht
  | within honce hself hothers _ ih =>
    rcases (mem_outerNodes_iff (not_applies_of_holdsOnce honce)).1 ht with rfl | ⟨b, hb, hpart⟩
    · exact absurd hlabel hself
    · rcases List.mem_append.1 hb with hb | hb
      · exact absurd (mem_outerLabels hpart hlabel) (hothers b (List.mem_append_left _ hb))
      · rcases List.mem_cons.1 hb with rfl | hb
        · exact ih hpart
        · exact absurd (mem_outerLabels hpart hlabel) (hothers b (List.mem_append_right _ hb))

end StandsOnce

/-- Whether the type node of a located value has the label. -/
def Located.hasLabel (name : String) (l : Located) : Bool := l.type.label? == some name

lemma hasLabel_iff : l.hasLabel name ↔ l.type.label? = some name := beq_iff_eq

lemma filter_hasLabel_locate (h : name ∉ outerLabels type) (around : List Surrounding)
    (queue : List Expr) : (locate type around queue).filter (Located.hasLabel name) = [] := by
  refine List.filter_eq_nil_iff.2 fun l hl hlabel => h ?_
  exact mem_outerLabels (type_mem_outerNodes hl).1 (hasLabel_iff.1 hlabel)

lemma filter_hasLabel_locateAll {types : List Expr} (h : ∀ t ∈ types, name ∉ outerLabels t)
    (around : List Surrounding) (queue : List Expr) :
    (locateAll types around queue).filter (Located.hasLabel name) = [] := by
  refine List.filter_eq_nil_iff.2 fun l hl hlabel => ?_
  obtain ⟨a, ha, queue', hl⟩ := mem_locateAll hl
  exact h a ha (mem_outerLabels (type_mem_outerNodes hl).1 (hasLabel_iff.1 hlabel))

/-- In a list of types the values of one of them are located in some part of the queue. -/
lemma locateAll_append_cons (before behind : List Expr) (a : Expr) (around : List Surrounding)
    (queue : List Expr) : ∃ mid rest, locateAll (before ++ a :: behind) around queue =
      locateAll before around queue ++ locate a around mid ++ locateAll behind around rest := by
  induction before generalizing queue with
  | nil => exact ⟨_, _, rfl⟩
  | cons b before ih =>
    obtain ⟨mid, rest, heq⟩ := ih (queue.drop (slots b).length)
    refine ⟨mid, rest, ?_⟩
    rw [List.cons_append, locateAll, heq, locateAll]
    simp only [List.append_assoc]

/-- An option or a choice has no value, is a value itself, or holds one of its parts. -/
lemma locate_holder (hp : p = .type .option ∨ p = .type .or) :
    locate (app p args annots w u) around queue = [] ∨
      (∃ l, locate (app p args annots w u) around queue = [l] ∧ l.type = app p args annots w u) ∨
      ∃ a ∈ args, ∃ x, locate (app p args annots w u) around queue =
        locate a (.node (app p args annots w u) :: around) (pairLeaves x) := by
  generalize hlist : locate (app p args annots w u) around queue = list
  unfold locate at hlist
  dsimp only at hlist
  split at hlist
  · rcases hp with hp | hp <;> cases hp
  · rcases hp with hp | hp <;> cases hp
  · split at hlist
    · exact Or.inl hlist.symm
    · split at hlist
      case h_1 => exact Or.inr (Or.inr ⟨_, List.mem_cons_self, _, hlist.symm⟩)
      case h_2 => exact Or.inr (Or.inr ⟨_, List.mem_cons_self, _, hlist.symm⟩)
      case h_3 =>
        exact Or.inr (Or.inr ⟨_, List.mem_cons_of_mem _ List.mem_cons_self, _, hlist.symm⟩)
      case h_6 => exact Or.inr (Or.inl ⟨_, hlist.symm, rfl⟩)
      -- neither lists nor maps
      all_goals rcases hp with hp | hp <;> cases hp

namespace StandsOnce

/-- At most one value is located at the node, and no more entries of maps are around it than around
the type. -/
lemma filter_locate (h : StandsOnce name node type) (hbigMap : node.applies (.type .bigMap))
    (around : List Surrounding) (queue : List Expr) :
    (locate type around queue).filter (Located.hasLabel name) = [] ∨
      ∃ l, (locate type around queue).filter (Located.hasLabel name) = [l] ∧
        l.around.findSome? Surrounding.entryName? =
          around.findSome? Surrounding.entryName? := by
  induction h generalizing around queue with
  | here =>
    match node, hbigMap with
    | .app p args annots w u, hbigMap =>
      obtain rfl : p = .type .bigMap := Option.some.inj (applies_iff.1 hbigMap)
      cases queue with
      | nil => exact Or.inl rfl
      | cons value rest =>
        rw [locate_bigMap, List.filter_cons, List.filter_nil]
        split
        · exact Or.inr ⟨_, rfl, rfl⟩
        · exact Or.inl rfl
  | @within p before behind a annots w u honce hself hothers _ ih =>
    have hbefore : ∀ t ∈ before, name ∉ outerLabels t :=
      fun t ht => hothers t (List.mem_append_left _ ht)
    have hbehind : ∀ t ∈ behind, name ∉ outerLabels t :=
      fun t ht => hothers t (List.mem_append_right _ ht)
    rcases holdsOnce_iff.1 honce with rfl | hp
    · obtain ⟨mid, rest, heq⟩ := locateAll_append_cons before behind a around queue
      rw [locate_pair, heq, List.filter_append, List.filter_append,
        filter_hasLabel_locateAll hbefore, filter_hasLabel_locateAll hbehind, List.nil_append,
        List.append_nil]
      exact ih around mid
    · rcases locate_holder hp with hnil | ⟨l, hl, htype⟩ | ⟨b, hb, x, heq⟩
      · rw [hnil]
        exact Or.inl rfl
      · rw [hl, List.filter_cons, List.filter_nil, if_neg]
        · exact Or.inl rfl
        · rw [hasLabel_iff, htype]
          exact hself
      · rw [heq]
        rcases List.mem_append.1 hb with hb | hb
        · exact Or.inl (filter_hasLabel_locate (hbefore b hb) _ _)
        · rcases List.mem_cons.1 hb with rfl | hb
          · exact ih _ _
          · exact Or.inl (filter_hasLabel_locate (hbehind b hb) _ _)

/-- Two values are not located at the node. -/
lemma eq_of_hasLabel (h : StandsOnce name node type) (hbigMap : node.applies (.type .bigMap))
    {value : Expr} {i j : Nat} {l l' : Located} (hl : (located type value)[i]? = some l)
    (hl' : (located type value)[j]? = some l') (hlabel : l.type.label? = some name)
    (hlabel' : l'.type.label? = some name) : ¬ j < i := by
  have hpairwise : ((located type value).filter (Located.hasLabel name)).Pairwise
      fun _ _ => False := by
    rcases h.filter_locate hbigMap [] value.pairLeaves with hnil | ⟨l, hsingle, -⟩
    · rw [located, hnil]
      exact .nil
    · rw [located, hsingle]
      exact List.pairwise_singleton _ _
  obtain ⟨hi, rfl⟩ := List.getElem?_eq_some_iff.1 hl
  obtain ⟨hj, rfl⟩ := List.getElem?_eq_some_iff.1 hl'
  intro hlt
  exact List.pairwise_iff_getElem.1 (List.pairwise_filter.1 hpairwise) j i hj hi hlt
    (hasLabel_iff.2 hlabel') (hasLabel_iff.2 hlabel)

/-- The base of the value that is located at the node is the label. -/
lemma base?_eq (h : StandsOnce name node type) (hbigMap : node.applies (.type .bigMap))
    {value : Expr} (hl : l ∈ located type value) (hlabel : l.type.label? = some name) :
    base? l.around l.type = some name := by
  have hmem : l ∈ (located type value).filter (Located.hasLabel name) :=
    List.mem_filter.2 ⟨hl, hasLabel_iff.2 hlabel⟩
  rcases h.filter_locate hbigMap [] value.pairLeaves with hnil | ⟨l', hsingle, hentry⟩
  · rw [located, hnil] at hmem
    exact absurd hmem List.not_mem_nil
  · rw [located, hsingle] at hmem
    obtain rfl := List.mem_singleton.1 hmem
    rw [base?, hentry, hlabel]
    rfl

/-- A value has the label for its base from the entry of a map, or from the node itself: what holds
a value has other labels. -/
lemma entry_or_label_of_base? (h : StandsOnce name node type)
    (hbigMap : node.applies (.type .bigMap)) {value : Expr} (hl : l ∈ located type value)
    (hbase : base? l.around l.type = some name) :
    l.around.findSome? Surrounding.entryName? = some name ∨ l.type.label? = some name := by
  simp only [base?, Option.orElse_eq_orElse, Option.orElse_eq_or, Option.or_eq_some_iff] at hbase
  rcases hbase with hentry | ⟨-, hlabel | ⟨-, haround⟩⟩
  · exact Or.inl hentry
  · exact Or.inr hlabel
  · obtain ⟨s, hs, hlabel⟩ := List.exists_of_findSome?_eq_some haround
    obtain ⟨t, ht, hsurrounds⟩ :=
      (surrounds_of_mem_around hl hs).resolve_left List.not_mem_nil
    -- the node is a big map, and big maps are around nothing
    cases hsurrounds with
    | option | or | list =>
      obtain rfl := h.eq_node hbigMap ht hlabel
      cases hbigMap
    | map => cases hlabel

end StandsOnce

/-! ### The name of the label -/

section

variable {value : Expr} {items : List Item} {ids : NameMap Int} {i j : Nat} {item other : Item}

namespace StandsOnce

/-- The item of the node has the label for its name, with a number if the name is taken. -/
lemma name_spec (h : StandsOnce name node type) (hbigMap : node.applies (.type .bigMap))
    (hlabel : node.label? = some name) (hnamed : namedItems type value = .ok items)
    (hitem : items[i]? = some item) (htype : item.type = node) :
    (name ∉ (items.take i).map Item.name → item.name = name) ∧
      (name ∈ (items.take i).map Item.name →
        Names.IsNumbered ((items.take i).map Item.name) name item.name) := by
  obtain ⟨l, hl, hnode, -⟩ := exists_located hnamed hitem
  have hbase := h.base?_eq hbigMap (List.mem_of_getElem? hl) (by rw [hnode, htype, hlabel])
  have hname := isNamed_of_namedItems hnamed hitem hl
  exact ⟨hname.of_new name hbase, hname.of_taken name hbase⟩

/-- An item before the node has the name only from the entry of a map or by a number. -/
lemma entry_or_isNumbered (h : StandsOnce name node type) (hbigMap : node.applies (.type .bigMap))
    (hlabel : node.label? = some name) (hnamed : namedItems type value = .ok items)
    (hitem : items[i]? = some item) (htype : item.type = node) (hlt : j < i)
    (hother : items[j]? = some other) (hl : (located type value)[j]? = some l)
    (hname : other.name = name) :
    l.around.findSome? Surrounding.entryName? = some name ∨
      Names.IsNumbered ((items.take j).map Item.name)
        ((base? l.around l.type).getD (defaultName l.prim)) name := by
  have hspec := isNamed_of_namedItems hnamed hother hl
  rw [hname] at hspec
  cases hbase : base? l.around l.type with
  | none => exact Or.inr (hspec.of_none hbase)
  | some base =>
    by_cases htaken : base ∈ (items.take j).map Item.name
    · exact Or.inr (hspec.of_taken base hbase htaken)
    · obtain rfl := hspec.of_new base hbase htaken
      refine (h.entry_or_label_of_base? hbigMap (List.mem_of_getElem? hl) hbase).imp_right ?_
      intro hself
      obtain ⟨l', hl', hnode, -⟩ := exists_located hnamed hitem
      exact absurd hlt (h.eq_of_hasLabel hbigMap hl' hl (by rw [hnode, htype, hlabel]) hself)

end StandsOnce

/-- A big map whose label stands on no other node of the type, with only pairs, options and choices
above it, is found under its label when no item before it has this name, and otherwise under the
label with the smallest number that makes it new.  An item before it has the name of the label only
if it is inside an entry of a map and that entry says this name, or if the name is a number behind
the base of the item. -/
theorem find?_bigMapIds_of_label_once (hnode : node ∈ openNodes type)
    (hbigMap : node.applies (.type .bigMap)) (hlabel : node.label? = some name)
    (honce : (type.nodes.filterMap label?).count name = 1)
    (hids : bigMapIds type value = .ok ids) :
    ∃ items, namedItems type value = .ok items ∧
      ∀ i item, items[i]? = some item → item.type = node → ∃ n, item.value.int? = some n ∧
        (name ∉ (items.take i).map Item.name → NameMap.find? name ids = some n) ∧
        (name ∈ (items.take i).map Item.name → ∃ numbered,
          Names.IsNumbered ((items.take i).map Item.name) name numbered ∧
            NameMap.find? numbered ids = some n) ∧
        ∀ j other l, j < i → items[j]? = some other → (located type value)[j]? = some l →
          other.name = name → l.around.findSome? Surrounding.entryName? = some name ∨
            Names.IsNumbered ((items.take j).map Item.name)
              ((base? l.around l.type).getD (defaultName l.prim)) name := by
  have houter : (outerNodes type).Sublist type.nodes :=
    visited_sublist_of_imp (fun t ht => absurd ht Bool.false_ne_true) type
  have hstands : StandsOnce name node type :=
    standsOnce_of_count_le hnode hlabel (((houter.filterMap label?).count_le name).trans honce.le)
  obtain ⟨items, hnamed, -⟩ := Except.bind_eq_ok_iff.1 hids
  refine ⟨items, hnamed, fun i item hitem htype => ?_⟩
  have hprim : item.prim = .type .bigMap := by
    have hboth := (item_type_mem_outerNodes hnamed hitem).2
    rw [htype, applies_iff.1 hbigMap] at hboth
    exact (Option.some.inj hboth).symm
  have hmem := List.mem_of_getElem? hitem
  obtain ⟨n, hn⟩ := exists_mapId? hnamed hmem hprim
  have hfind := find?_bigMapIds hnamed hids hmem hn
  obtain ⟨hnew, htaken⟩ := hstands.name_spec hbigMap hlabel hnamed hitem htype
  rw [Item.mapId?, if_pos hprim] at hn
  refine ⟨n, hn, fun hfree => ?_, fun hused => ⟨item.name, htaken hused, hfind⟩, ?_⟩
  · rwa [hnew hfree] at hfind
  · intro j other l hlt hother hl hname
    exact hstands.entry_or_isNumbered hbigMap hlabel hnamed hitem htype hlt hother hl hname

end

/-- A map with an entry of another name before the big map: the label is its name. -/
theorem find?_bigMapIds_of_label_once_kept :
    let ledger : Expr := app (.type .bigMap) [type0 .address, type0 .nat] ["%ledger"] false false
    let type := type2 .pair (type2 .map (type0 .string) (type0 .nat)) (type1 .option ledger)
    let value := data2 .pair (list [data2 .elt (string "total") (int 1)]) (data1 .some (int 5))
    ledger ∈ openNodes type ∧ (type.nodes.filterMap label?).count "ledger" = 1 ∧
      ∃ ids, bigMapIds type value = .ok ids ∧ NameMap.find? "ledger" ids = some 5 := by
  intro ledger type value
  have hnode : ledger ∈ openNodes type := by
    refine mem_openNodes_iff.2 (Or.inr ⟨rfl, type1 .option ledger, ?_, ?_⟩)
    · exact List.mem_cons_of_mem _ List.mem_cons_self
    · refine mem_openNodes_iff.2 (Or.inr ⟨rfl, ledger, List.mem_cons_self, ?_⟩)
      exact mem_openNodes_iff.2 (Or.inl rfl)
  have hlabel : ledger.label? = some "ledger" := by rfl
  have honce : (type.nodes.filterMap label?).count "ledger" = 1 := by decide +kernel
  have hids : bigMapIds type value = .ok [("ledger", 5)] := by rfl
  refine ⟨hnode, honce, _, hids, ?_⟩
  obtain ⟨items, hitems, hspec⟩ := find?_bigMapIds_of_label_once hnode rfl hlabel honce hids
  have hnamed : namedItems type value = .ok [⟨"total", .type .nat, type0 .nat, int 1⟩,
    ⟨"ledger", .type .bigMap, ledger, int 5⟩] := by rfl
  rw [hnamed] at hitems
  cases hitems
  obtain ⟨n, hn, hkept, -⟩ := hspec 1 _ rfl rfl
  rw [hkept (by decide)]
  exact hn.symm

/-- An entry that says the label before the big map: the label is lost to the entry. -/
theorem find?_bigMapIds_ne_of_entry :
    let ledger : Expr := app (.type .bigMap) [type0 .address, type0 .nat] ["%ledger"] false false
    let type := type2 .pair (type2 .map (type0 .string) (type0 .nat)) ledger
    let value := data2 .pair (list [data2 .elt (string "ledger") (int 1)]) (int 5)
    ledger ∈ openNodes type ∧ ledger.applies (.type .bigMap) ∧ ledger.label? = some "ledger" ∧
      (type.nodes.filterMap label?).count "ledger" = 1 ∧
      ∃ items ids, namedItems type value = .ok items ∧ bigMapIds type value = .ok ids ∧
        (∃ item ∈ items, item.type = ledger ∧ item.value.int? = some 5) ∧
        NameMap.find? "ledger" ids = none ∧ NameMap.find? "ledger_0" ids = some 5 := by
  intro ledger type value
  have hnode : ledger ∈ openNodes type := by
    refine mem_openNodes_iff.2 (Or.inr ⟨rfl, ledger, ?_, mem_openNodes_iff.2 (Or.inl rfl)⟩)
    exact List.mem_cons_of_mem _ List.mem_cons_self
  let renamed : Item := ⟨"ledger_0", .type .bigMap, ledger, int 5⟩
  have hnamed : namedItems type value =
    .ok [⟨"ledger", .type .nat, type0 .nat, int 1⟩, renamed] := by rfl
  have hids : bigMapIds type value = .ok [("ledger_0", 5)] := by rfl
  have honce : (type.nodes.filterMap label?).count "ledger" = 1 := by decide +kernel
  refine ⟨hnode, rfl, rfl, honce, _, _, hnamed, hids, ⟨renamed, ?_, rfl, rfl⟩, rfl, rfl⟩
  exact List.mem_cons_of_mem _ List.mem_cons_self

end Michelson.Storage
