/-
# Names of keys

The entries of a map are members of its rendering, named by their rendered keys.  A key that is a
text is named by itself and any other by its JSON text, and an object has one member for each name.
So of several entries whose keys have one name the last is kept.

Keys of one type that do not look alike have different names, apart from a key that is absent and
one that is the text "null" (`Confusable`).  The main statement is `map_keeps_entries_iff`: in a map
that is rendered every entry has a member of its own exactly if no two keys are confusable.
-/
import Michelson.Proofs.NameMap
import Michelson.Proofs.TypedValue.Keys

namespace Michelson

namespace TypedValue

open Michelson.Expr

/-- Two keys of a type that have one name: they look alike, or one of them is absent and the other
spells "null". -/
def Confusable (k x y : Expr) : Prop :=
  LookAlike k x y ∨ IsAbsent x ∧ SpellsNull y ∨ SpellsNull x ∧ IsAbsent y

variable {k a x y : Expr} {annots : List String} {w u u' : Bool} {i j : Json}

/-! ### Names of keys -/

lemma memberName_of_ne_text (h : ∀ s, j ≠ .text s) : memberName j = j.print := by
  cases j with
  | text s => exact absurd rfl (h s)
  | null | bool | number | array | object => rfl

/-- Values that are no texts have names of their own. -/
lemma eq_of_memberName (hi : i.IsWhole) (hj : j.IsWhole) (hi' : ∀ s, i ≠ .text s)
    (hj' : ∀ s, j ≠ .text s) (h : memberName i = memberName j) : i = j := by
  rw [memberName_of_ne_text hi', memberName_of_ne_text hj'] at h
  exact Json.print_injective hi hj h

lemma eq_null_or_text_of_memberName (hj : j.IsWhole) (h : memberName j = "null") :
    j = .null ∨ j = .text "null" := by
  by_cases htext : ∃ s, j = .text s
  · obtain ⟨s, rfl⟩ := htext
    exact .inr (congrArg Json.text h)
  · exact .inl (eq_of_memberName hj .null (fun s hs => htext ⟨s, hs⟩) nofun h)

lemma memberName_renderInt (n : Int) : memberName (renderInt n) = toString n := by
  rw [renderInt]
  split
  · exact String.ofList_toList
  · rfl

lemma renderInt_eq_of_memberName {n m : Int}
    (h : memberName (renderInt n) = memberName (renderInt m)) : renderInt n = renderInt m := by
  rw [memberName_renderInt, memberName_renderInt] at h
  rw [Decimal.toString_injective h]

lemma ne_text_of_map {α : Type} {r : Except ShapeFault α} {f : α → List (String × Json)}
    (h : r.map (fun a => .object (f a)) = .ok j) (s : String) : j ≠ .text s := by
  obtain ⟨a, -, rfl⟩ := Except.map_eq_ok_iff.1 h
  exact nofun

lemma KeyFits.rendering_spec (hx : KeyFits k x) (hi : render ⟨k, x⟩ = .ok i) :
    i.IsWhole ∧ (i = .null ↔ IsAbsent x) ∧ (i = .text "null" ↔ SpellsNull x) := by
  obtain ⟨j, hj, hspec⟩ := hx.renders.1
  obtain rfl : j = i := Except.ok.inj (hj.symm.trans hi)
  exact hspec

/-- Keys of one type that have one name are rendered to the same, except that `null` and the text
"null" have one name. -/
lemma KeyFits.eq_of_memberName (hx : KeyFits k x) (hy : KeyFits k y)
    (hi : render ⟨k, x⟩ = .ok i) (hj : render ⟨k, y⟩ = .ok j) (h : memberName i = memberName j) :
    i = j ∨ i = .null ∧ j = .text "null" ∨ i = .text "null" ∧ j = .null := by
  obtain ⟨hi', -⟩ := hx.rendering_spec hi
  obtain ⟨hj', -⟩ := hy.rendering_spec hj
  induction hx generalizing y with
  | text s =>
    cases hy with
    | text t =>
      rw [render_leaf rfl] at hi hj
      cases hi
      cases hj
      exact .inl (congrArg Json.text h)
  | int n =>
    cases hy with
    | int m =>
      cases (render_leaf rfl).symm.trans hi
      cases (render_leaf rfl).symm.trans hj
      exact .inl (renderInt_eq_of_memberName h)
  | nat n =>
    cases hy with
    | nat m =>
      cases (render_leaf rfl).symm.trans hi
      cases (render_leaf rfl).symm.trans hj
      exact .inl (renderInt_eq_of_memberName h)
  | bytes b =>
    cases hy with
    | bytes c =>
      rw [render_leaf rfl] at hi hj
      cases hi
      cases hj
      exact .inl (congrArg Json.text h)
  | true | false | unit =>
    refine .inl (TypedValue.eq_of_memberName hi' hj' ?_ ?_ h)
    · cases (render_leaf rfl).symm.trans hi
      exact nofun
    · cases hy <;> cases (render_leaf rfl).symm.trans hj <;> exact nofun
  | none =>
    cases render_none.symm.trans hi
    rcases eq_null_or_text_of_memberName hj' h.symm with rfl | rfl
    · exact .inl rfl
    · exact .inr (.inl ⟨rfl, rfl⟩)
  | some hx ih =>
    cases hy with
    | none =>
      cases render_none.symm.trans hj
      rcases eq_null_or_text_of_memberName hi' h with rfl | rfl
      · exact .inl rfl
      · exact .inr (.inr ⟨rfl, rfl⟩)
    | some hy => exact ih hy (render_some.symm.trans hi) (render_some.symm.trans hj)
  | left hx ih =>
    refine .inl (TypedValue.eq_of_memberName hi' hj' (ne_text_of_map (render_left.symm.trans hi))
      ?_ h)
    cases hy with
    | left hy => exact ne_text_of_map (render_left.symm.trans hj)
    | right hy => exact ne_text_of_map (render_right.symm.trans hj)
  | right hx ih =>
    refine .inl (TypedValue.eq_of_memberName hi' hj' (ne_text_of_map (render_right.symm.trans hi))
      ?_ h)
    cases hy with
    | left hy => exact ne_text_of_map (render_left.symm.trans hj)
    | right hy => exact ne_text_of_map (render_right.symm.trans hj)
  | pair hx hy' ihx ihy =>
    refine .inl (TypedValue.eq_of_memberName hi' hj'
      (ne_text_of_map ((render_object rfl).symm.trans hi)) ?_ h)
    cases hy with
    | pair hx' hy => exact ne_text_of_map ((render_object rfl).symm.trans hj)

/-- Two keys of a type have one name exactly if they are confusable. -/
theorem KeyFits.memberName_eq_iff (hx : KeyFits k x) (hy : KeyFits k y)
    (hi : render ⟨k, x⟩ = .ok i) (hj : render ⟨k, y⟩ = .ok j) :
    memberName i = memberName j ↔ Confusable k x y := by
  obtain ⟨i', j', hi', hj', -, -, halike⟩ := (hx.alike hy).1
  obtain rfl : i' = i := Except.ok.inj (hi'.symm.trans hi)
  obtain rfl : j' = j := Except.ok.inj (hj'.symm.trans hj)
  obtain ⟨-, hnullx, htextx⟩ := hx.rendering_spec hi
  obtain ⟨-, hnully, htexty⟩ := hy.rendering_spec hj
  rw [Confusable, ← halike, ← hnullx, ← htextx, ← hnully, ← htexty]
  refine ⟨hx.eq_of_memberName hy hi hj, ?_⟩
  rintro (rfl | ⟨rfl, rfl⟩ | ⟨rfl, rfl⟩)
  · rfl
  · rfl
  · rfl

/-! ### Entries of maps -/

/-- An entry of a map, with its key and its value. -/
inductive IsEntryOf : Expr → Expr × Expr → Prop
  | intro (key value : Expr) {annots : List String} {w u : Bool} :
      IsEntryOf (app (.data .elt) [key, value] annots w u) (key, value)

lemma map_entry_of_forall₂ {entries : List Expr} {pairs : List (Expr × Expr)}
    (h : List.Forall₂ IsEntryOf entries pairs) (k a : Expr) :
    entries.map (entry k a) = pairs.map fun p => .keyed ⟨k, p.1⟩ ⟨a, p.2⟩ := by
  induction h with
  | nil => rfl
  | cons h _ ih =>
    cases h
    rw [List.map_cons, List.map_cons, ih]
    rfl

lemma forall₂_comp {α β γ : Type} {R : α → β → Prop} {S : β → γ → Prop} {as : List α}
    {bs : List β} {cs : List γ} (h : List.Forall₂ R as bs) (h' : List.Forall₂ S bs cs) :
    List.Forall₂ (fun a c => ∃ b, R a b ∧ S b c) as cs := by
  induction h generalizing cs with
  | nil =>
    cases h'
    exact .nil
  | cons hab _ ih =>
    cases h' with
    | cons hbc h' => exact .cons ⟨_, hab, hbc⟩ (ih h')

lemma pairwise_iff_of_forall₂ {α β : Type} {R : α → β → Prop} {S : α → α → Prop}
    {T : β → β → Prop} {as : List α} {bs : List β} (h : List.Forall₂ R as bs)
    (hST : ∀ a a' b b', R a b → R a' b' → (S a a' ↔ T b b')) :
    as.Pairwise S ↔ bs.Pairwise T := by
  induction h with
  | nil => simp
  | @cons a b as bs hab h ih =>
    have hhead : (∀ a' ∈ as, S a a') ↔ ∀ b' ∈ bs, T b b' := by
      clear ih
      induction h with
      | nil => simp
      | cons hab' _ ih =>
        rw [List.forall_mem_cons, List.forall_mem_cons, hST _ _ _ _ hab hab', ih]
    rw [List.pairwise_cons, List.pairwise_cons, hhead, ih]

/-- A map that is rendered has its entries as the members of its rendering, named by their keys. -/
lemma exists_members_of_map {entries : List Expr} {pairs : List (Expr × Expr)}
    (h : List.Forall₂ IsEntryOf entries pairs)
    (hj : render ⟨app (.type .map) [k, a] annots w u, seq entries u'⟩ = .ok j) :
    ∃ members, j = .ofMembers members ∧ List.Forall₂ (fun (p : Expr × Expr) m =>
      (∃ i, render ⟨k, p.1⟩ = .ok i ∧ m.1 = memberName i) ∧ render ⟨a, p.2⟩ = .ok m.2)
        pairs members := by
  have hparts : parts ⟨app (.type .map) [k, a] annots w u, seq entries u'⟩ =
      .ok (pairs.map fun p => .keyed ⟨k, p.1⟩ ⟨a, p.2⟩) :=
    congrArg Except.ok (map_entry_of_forall₂ h k a)
  rw [render_object_eq_bind rfl] at hj
  obtain ⟨cs, hcs, hj⟩ := Except.bind_eq_ok_iff.1 hj
  obtain ⟨members, hmembers, hj⟩ := Except.bind_eq_ok_iff.1 hj
  refine ⟨members, (Except.ok.inj hj).symm, ?_⟩
  have hnamed := List.forall₂_map_left_iff.1 (forall₂_of_children hparts hcs)
  refine (forall₂_comp hnamed (Except.forall₂_of_mapM hmembers)).imp ?_
  rintro ⟨key, value⟩ m ⟨c, ⟨hname, hchild⟩, hm⟩
  obtain ⟨i, hi, hname⟩ := Except.map_eq_ok_iff.1 hname
  obtain ⟨j, hj, rfl⟩ := Except.map_eq_ok_iff.1 hm
  exact ⟨⟨i, hi, hname.symm⟩, Option.some.inj hchild ▸ hj⟩

/-- If a map can be rendered then its rendering is an object, which has as many members as the map
has entries exactly if no two keys are confusable; and then its members are the renderings of the
entries, each under the name of its key. -/
theorem map_keeps_entries_iff (k a : Expr) (annots : List String) (w u u' : Bool)
    (entries : List Expr) (pairs : List (Expr × Expr)) (j : Json)
    (hentries : List.Forall₂ IsEntryOf entries pairs) (hkeys : ∀ p ∈ pairs, KeyFits k p.1)
    (hj : render ⟨app (.type .map) [k, a] annots w u, seq entries u'⟩ = .ok j) :
    ∃ members, j = .object members ∧ members.length ≤ entries.length ∧
      (members.length = entries.length ↔
        pairs.Pairwise fun p q => ¬ Confusable k p.1 q.1) ∧
      (pairs.Pairwise (fun p q => ¬ Confusable k p.1 q.1) →
        ∃ named, members.Perm named ∧ List.Forall₂ (fun (p : Expr × Expr) m =>
          (∃ i, render ⟨k, p.1⟩ = .ok i ∧ m.1 = memberName i) ∧ render ⟨a, p.2⟩ = .ok m.2)
            pairs named) := by
  obtain ⟨named, rfl, hnamed⟩ := exists_members_of_map hentries hj
  have hlength : named.length = entries.length :=
    hnamed.length_eq.symm.trans hentries.length_eq.symm
  have hpairwise : (pairs.Pairwise fun p q => ¬ Confusable k p.1 q.1) ↔
      (named.map Prod.fst).Nodup := by
    rw [List.Nodup, List.pairwise_map]
    refine pairwise_iff_of_forall₂ ((List.forall₂_and_left _ _).2 ⟨hkeys, hnamed⟩) ?_
    rintro p q m n ⟨hp, ⟨i, hi, hm⟩, -⟩ ⟨hq, ⟨i', hi', hn⟩, -⟩
    rw [hm, hn, Ne, hp.memberName_eq_iff hq hi hi']
  refine ⟨NameMap.ofList named, rfl, ?_, ?_, fun h => ?_⟩
  · exact hlength ▸ NameMap.length_ofList_le named
  · rw [hpairwise, ← hlength, NameMap.length_ofList_iff]
  · exact ⟨named, NameMap.perm_ofList (hpairwise.1 h), hnamed⟩

/-- Nothing and a text in the place of an optional key have names of their own. -/
theorem map_keeps_entries_iff_optional :
    let k := type1 .option (type0 .string)
    let pairs := [(data0 .none, int 1), (data1 .some (string "a"), int 2)]
    let entries := pairs.map fun p => data2 .elt p.1 p.2
    let members := [("a", Json.int 2), ("null", .int 1)]
    List.Forall₂ IsEntryOf entries pairs ∧ (∀ p ∈ pairs, KeyFits k p.1) ∧
      render ⟨type2 .map k (type0 .nat), list entries⟩ = .ok (.object members) ∧
      pairs.Pairwise fun p q => ¬ Confusable k p.1 q.1 := by
  intro k pairs entries members
  have hentries : List.Forall₂ IsEntryOf entries pairs :=
    .cons (.intro _ _) (.cons (.intro _ _) .nil)
  have hkeys : ∀ p ∈ pairs, KeyFits k p.1 := by
    simp only [pairs, List.forall_mem_cons]
    exact ⟨.none, .some (.text "a"), nofun⟩
  have hrender : render ⟨type2 .map k (type0 .nat), list entries⟩ = .ok (.object members) := by
    cbv
  refine ⟨hentries, hkeys, hrender, ?_⟩
  obtain ⟨members', hmembers, -, hiff, -⟩ :=
    map_keeps_entries_iff k (type0 .nat) [] false false false entries pairs _ hentries hkeys hrender
  exact hiff.1 (by rw [← Json.object.inj hmembers]; rfl)

/-- The text "null" and nothing in the place of an optional key have one name, so of the two entries
only the last one is kept. -/
theorem map_drops_entry_null :
    let k := type1 .option (type0 .string)
    let x := data0 .none
    let y := data1 .some (string "null")
    KeyFits k x ∧ KeyFits k y ∧ x ≠ y ∧
      render ⟨type2 .map k (type0 .nat),
        list [data2 .elt x (int 1), data2 .elt y (int 2)]⟩ = .ok (.object [("null", .int 2)]) := by
  intro k x y
  refine ⟨.none, .some (.text "null"), ?_, by cbv⟩
  simp [x, y, data0, data1, apply0, apply1, apply]

end TypedValue

end Michelson
