/-
# Keys that are rendered alike

Two keys of a type may be rendered alike although they differ.  What is absent is `null` however
deep it lies inside options; the sides of a choice may have one name; and annotations are not
rendered.  Other keys of one type have different renderings (`LookAlike`).

A pair without a label is merged into the pair around it, so the keys inside a pair are compared by
the fields that they stand for and not by their own renderings (`FieldsAlike`).  Fields are named by
their types, and objects under the same names are the same only if what is in them is.  The main
statement is `KeyFits.alike`.
-/
import Michelson.Proofs.Bytes.Hex
import Michelson.Proofs.Json.Injective
import Michelson.Proofs.TypedValue.Rendering

namespace Michelson

namespace TypedValue

open Michelson.Expr

/-! ### Keys -/

/-- The keys of a type of keys: numbers, texts, bytes, truth values, the unit, and options, choices
and pairs of keys. -/
inductive KeyFits : Expr → Expr → Prop
  | text {annots : List String} {w u u' : Bool} (s : String) :
      KeyFits (app (.type .string) [] annots w u) (literal (.string s) u')
  | int {annots : List String} {w u u' : Bool} (n : Int) :
      KeyFits (app (.type .int) [] annots w u) (literal (.int n) u')
  | nat {annots : List String} {w u u' : Bool} (n : Int) :
      KeyFits (app (.type .nat) [] annots w u) (literal (.int n) u')
  | bytes {annots : List String} {w u u' : Bool} (b : Bytes) :
      KeyFits (app (.type .bytes) [] annots w u) (literal (.bytes b) u')
  | true {annots annots' : List String} {w u w' u' : Bool} :
      KeyFits (app (.type .bool) [] annots w u) (app (.data .true) [] annots' w' u')
  | false {annots annots' : List String} {w u w' u' : Bool} :
      KeyFits (app (.type .bool) [] annots w u) (app (.data .false) [] annots' w' u')
  | unit {annots annots' : List String} {w u w' u' : Bool} :
      KeyFits (app (.type .unit) [] annots w u) (app (.data .unit) [] annots' w' u')
  | none {a : Expr} {annots annots' : List String} {w u w' u' : Bool} :
      KeyFits (app (.type .option) [a] annots w u) (app (.data .none) [] annots' w' u')
  | some {a x : Expr} {annots annots' : List String} {w u w' u' : Bool} : KeyFits a x →
      KeyFits (app (.type .option) [a] annots w u) (app (.data .some) [x] annots' w' u')
  | left {a b x : Expr} {annots annots' : List String} {w u w' u' : Bool} : KeyFits a x →
      KeyFits (app (.type .or) [a, b] annots w u) (app (.data .left) [x] annots' w' u')
  | right {a b x : Expr} {annots annots' : List String} {w u w' u' : Bool} : KeyFits b x →
      KeyFits (app (.type .or) [a, b] annots w u) (app (.data .right) [x] annots' w' u')
  | pair {a b x y : Expr} {annots annots' : List String} {w u w' u' : Bool} :
      KeyFits a x → KeyFits b y →
      KeyFits (app (.type .pair) [a, b] annots w u) (app (.data .pair) [x, y] annots' w' u')

/-- The keys that are rendered as `null`: the unit, and nothing inside any number of options. -/
inductive IsAbsent : Expr → Prop
  | unit {annots : List String} {w u : Bool} : IsAbsent (app (.data .unit) [] annots w u)
  | none {annots : List String} {w u : Bool} : IsAbsent (app (.data .none) [] annots w u)
  | some {x : Expr} {annots : List String} {w u : Bool} : IsAbsent x →
      IsAbsent (app (.data .some) [x] annots w u)

/-- The text "null", inside any number of options. -/
inductive SpellsNull : Expr → Prop
  | text {u : Bool} : SpellsNull (literal (.string "null") u)
  | some {x : Expr} {annots : List String} {w u : Bool} : SpellsNull x →
      SpellsNull (app (.data .some) [x] annots w u)

/-- The name of a side of a choice. -/
def sideName (type : Expr) (default : String) : String := type.label?.getD default

/-- Two keys of a type that are rendered alike: they are built alike from the same literals, or both
are absent, or they are on different sides of a choice which have one name and what is there is
rendered alike. -/
inductive LookAlike : Expr → Expr → Expr → Prop
  | literal {k : Expr} {u u' : Bool} (l : Literal) : LookAlike k (literal l u) (literal l u')
  | constant {k : Expr} {annots annots' : List String} {w u w' u' : Bool} (p : Primitive) :
      LookAlike k (app p [] annots w u) (app p [] annots' w' u')
  | absent {k x y : Expr} : IsAbsent x → IsAbsent y → LookAlike k x y
  | some {a x y : Expr} {annots annots' annots'' : List String} {w u w' u' w'' u'' : Bool} :
      LookAlike a x y → LookAlike (app (.type .option) [a] annots w u)
        (app (.data .some) [x] annots' w' u') (app (.data .some) [y] annots'' w'' u'')
  | left {a b x y : Expr} {annots annots' annots'' : List String} {w u w' u' w'' u'' : Bool} :
      LookAlike a x y → LookAlike (app (.type .or) [a, b] annots w u)
        (app (.data .left) [x] annots' w' u') (app (.data .left) [y] annots'' w'' u'')
  | right {a b x y : Expr} {annots annots' annots'' : List String} {w u w' u' w'' u'' : Bool} :
      LookAlike b x y → LookAlike (app (.type .or) [a, b] annots w u)
        (app (.data .right) [x] annots' w' u') (app (.data .right) [y] annots'' w'' u'')
  | sides {a b x y : Expr} {annots annots' annots'' : List String} {w u w' u' w'' u'' : Bool} :
      sideName a "Left" = sideName b "Right" → render ⟨a, x⟩ = render ⟨b, y⟩ →
      LookAlike (app (.type .or) [a, b] annots w u)
        (app (.data .left) [x] annots' w' u') (app (.data .right) [y] annots'' w'' u'')
  | sides' {a b x y : Expr} {annots annots' annots'' : List String} {w u w' u' w'' u'' : Bool} :
      sideName a "Left" = sideName b "Right" → render ⟨a, x⟩ = render ⟨b, y⟩ →
      LookAlike (app (.type .or) [a, b] annots w u)
        (app (.data .right) [y] annots' w' u') (app (.data .left) [x] annots'' w'' u'')
  | pair {a b x y x' y' : Expr} {annots annots' annots'' : List String}
      {w u w' u' w'' u'' : Bool} : LookAlike a x x' → LookAlike b y y' →
      LookAlike (app (.type .pair) [a, b] annots w u)
        (app (.data .pair) [x, y] annots' w' u') (app (.data .pair) [x', y'] annots'' w'' u'')

variable {k a b x y x' y' : Expr} {annots annots' annots'' : List String}
  {w u w' u' w'' u'' : Bool} {i j : Json}

/-! ### Renderings of keys -/

lemma renderInt_injective : Function.Injective renderInt := by
  intro n m h
  unfold renderInt at h
  split at h <;> split at h
  · simpa [Json.int] using h
  · cases h
  · cases h
  · exact Decimal.toString_injective (Json.text.inj h)

lemma toString_ne_null (n : Int) : toString n ≠ "null" := by
  intro h
  have hread := Decimal.int?_toString n
  rw [h] at hread
  cases hread

lemma toHex_ne_null (b : Bytes) : Bytes.toHex b ≠ "null" := by
  intro h
  have hread := Bytes.ofHex_toHex b
  rw [h] at hread
  cases hread

lemma KeyFits.applies_of_isPair (h : KeyFits k x) (hp : k.isPair) : k.applies (.type .pair) := by
  cases h <;> first | rfl | cases hp

lemma render_some :
    render ⟨app (.type .option) [a] annots w u, app (.data .some) [x] annots' w' u'⟩ =
      render ⟨a, x⟩ :=
  render_option_some rfl rfl

lemma render_none :
    render ⟨app (.type .option) [a] annots w u, app (.data .none) [] annots' w' u'⟩ =
      .ok .null :=
  render_option_none rfl rfl

lemma render_left :
    render ⟨app (.type .or) [a, b] annots w u, app (.data .left) [x] annots' w' u'⟩ =
      (render ⟨a, x⟩).map fun j => .object [(sideName a "Left", j)] := by
  rw [render_choice_some rfl rfl]
  change (render ⟨a, x⟩ >>= _) = _
  cases render ⟨a, x⟩ <;> rfl

lemma render_right :
    render ⟨app (.type .or) [a, b] annots w u, app (.data .right) [x] annots' w' u'⟩ =
      (render ⟨b, x⟩).map fun j => .object [(sideName b "Right", j)] := by
  rw [render_choice_some rfl rfl]
  change (render ⟨b, x⟩ >>= _) = _
  cases render ⟨b, x⟩ <;> rfl

/-! ### Two renderings at a time -/

/-- Two values are rendered, and to the same exactly if `P`. -/
def RenderAlike (v w : TypedValue) (P : Prop) : Prop :=
  ∃ i j, render v = .ok i ∧ render w = .ok j ∧ i.IsWhole ∧ j.IsWhole ∧ (i = j ↔ P)

/-- Two lists of fields of the same types are rendered, and to the same exactly if `P`. -/
def FieldsAlike (fs gs : Option (List TypedValue)) (P : Prop) : Prop :=
  ∃ fs' gs' is js, fs = some fs' ∧ gs = some gs' ∧ fs'.map type = gs'.map type ∧
    List.Forall₂ (fun f i => render f = .ok i ∧ i.IsWhole) fs' is ∧
    List.Forall₂ (fun g j => render g = .ok j ∧ j.IsWhole) gs' js ∧ (is = js ↔ P)

variable {P Q : Prop} {v t : TypedValue}

lemma RenderAlike.of_iff (h : RenderAlike v t P) (hPQ : P ↔ Q) : RenderAlike v t Q := by
  obtain ⟨i, j, hi, hj, hwhole, hwhole', heq⟩ := h
  exact ⟨i, j, hi, hj, hwhole, hwhole', heq.trans hPQ⟩

lemma RenderAlike.singleton (h : RenderAlike v t P) (htype : v.type = t.type) :
    FieldsAlike (some [v]) (some [t]) P := by
  obtain ⟨i, j, hi, hj, hwhole, hwhole', heq⟩ := h
  refine ⟨[v], [t], [i], [j], rfl, rfl, by simp [htype], .cons ⟨hi, hwhole⟩ .nil,
    .cons ⟨hj, hwhole'⟩ .nil, ?_⟩
  rw [List.singleton_inj, heq]

lemma FieldsAlike.append {fs gs fs' gs' : Option (List TypedValue)} (h : FieldsAlike fs gs P)
    (h' : FieldsAlike fs' gs' Q) :
    FieldsAlike (fs.bind fun f => fs'.map (f ++ ·)) (gs.bind fun g => gs'.map (g ++ ·))
      (P ∧ Q) := by
  obtain ⟨f, g, is, js, rfl, rfl, htypes, hf, hg, heq⟩ := h
  obtain ⟨f', g', is', js', rfl, rfl, htypes', hf', hg', heq'⟩ := h'
  have hlength : is.length = js.length := by
    rw [← hf.length_eq, ← hg.length_eq]
    simpa using congrArg List.length htypes
  refine ⟨f ++ f', g ++ g', is ++ is', js ++ js', rfl, rfl, ?_, List.rel_append hf hf',
    List.rel_append hg hg', ?_⟩
  · rw [List.map_append, List.map_append, htypes, htypes']
  · rw [← heq, ← heq']
    exact ⟨fun h => List.append_inj h hlength, fun h => by rw [h.1, h.2]⟩

/-- A pair is rendered as the object of the renderings of its fields. -/
lemma render_of_fields {args : List Expr} {fs : List TypedValue} {is : List Json}
    (hfs : fields (app (.type .pair) args annots w u) x = some fs)
    (his : List.Forall₂ (fun f i => render f = .ok i ∧ i.IsWhole) fs is) :
    render ⟨app (.type .pair) args annots w u, x⟩ =
      .ok (.ofMembers ((fieldNames (fs.map type)).zip is)) := by
  have hmembers : ∀ names : List String,
      ((names.zip fs).mapM fun c => (render c.2).map fun j => (c.1, j)) = .ok (names.zip is) := by
    clear hfs
    induction his with
    | nil => intro names; cases names <;> rfl
    | @cons f i fs is hi _ ih =>
      intro names
      cases names with
      | nil => rfl
      | cons name names =>
        rw [List.zip_cons_cons, List.mapM_cons, hi.1, ih names]
        rfl
  have hchildren := children_of_nameFields (parts_of_fields (v := ⟨_, x⟩) rfl hfs)
  rw [render_object rfl, renderParts_eq_mapM hchildren, hmembers]
  rfl

/-- Objects of values under the same names are the same only if the values are. -/
lemma ofMembers_zip_injective {names : List String} (hnodup : names.Nodup) {is js : List Json}
    (his : is.length = names.length) (hjs : js.length = names.length)
    (h : Json.ofMembers (names.zip is) = .ofMembers (names.zip js)) : is = js := by
  have hfind : ∀ {is : List Json} (n : Nat) (hn : n < names.length) (hn' : n < is.length),
      is.length = names.length → NameMap.find? names[n] (NameMap.ofList (names.zip is)) =
        some is[n] := by
    intro is n hn hn' his
    refine NameMap.find?_ofList ?_ (List.mem_iff_getElem?.2 ⟨n, ?_⟩)
    · rwa [List.map_fst_zip his.ge]
    · rw [List.getElem?_zip_eq_some]
      exact ⟨List.getElem?_eq_getElem hn, List.getElem?_eq_getElem hn'⟩
  have hlist := Json.object.inj h
  refine List.ext_getElem (his.trans hjs.symm) fun n hn hn' => Option.some.inj ?_
  rw [← hfind n (his ▸ hn) hn his, hlist, hfind n (his ▸ hn) hn' hjs]

lemma isWhole_ofMembers {names : List String} {fs : List TypedValue} {is : List Json}
    (h : List.Forall₂ (fun f i => render f = .ok i ∧ i.IsWhole) fs is) :
    (Json.ofMembers (names.zip is)).IsWhole := by
  refine .object fun m hm => ?_
  have hzip := NameMap.mem_of_mem_ofList hm
  obtain ⟨n, hn⟩ := List.mem_iff_getElem?.1 (List.of_mem_zip hzip).2
  obtain ⟨f, -, hf⟩ := exists_getElem?_of_forall₂ h.flip hn
  exact hf.2

lemma FieldsAlike.render {args : List Expr}
    (h : FieldsAlike (fields (app (.type .pair) args annots w u) x)
      (fields (app (.type .pair) args annots w u) y) P) :
    RenderAlike ⟨app (.type .pair) args annots w u, x⟩
      ⟨app (.type .pair) args annots w u, y⟩ P := by
  obtain ⟨fs, gs, is, js, hfs, hgs, htypes, his, hjs, heq⟩ := h
  have hnames := nodup_fieldNames (fs.map type)
  have hlength : ∀ {fs : List TypedValue} {is : List Json},
      List.Forall₂ (fun f i => TypedValue.render f = .ok i ∧ i.IsWhole) fs is →
        is.length = (fieldNames (fs.map type)).length := fun h => by
    rw [length_fieldNames, List.length_map, h.length_eq]
  refine ⟨_, _, render_of_fields hfs his, render_of_fields hgs hjs, isWhole_ofMembers his,
    isWhole_ofMembers hjs, ?_⟩
  rw [← heq, ← htypes]
  refine ⟨fun h => ofMembers_zip_injective hnames (hlength his) ?_ h, fun h => by rw [h]⟩
  rw [htypes, hlength hjs]

/-! ### Keys that look alike -/

lemma lookAlike_some_iff :
    LookAlike (app (.type .option) [a] annots w u) (app (.data .some) [x] annots' w' u')
      (app (.data .some) [y] annots'' w'' u'') ↔ LookAlike a x y := by
  refine ⟨fun h => ?_, .some⟩
  cases h with
  | absent hx hy =>
    cases hx with
    | some hx =>
      cases hy with
      | some hy => exact .absent hx hy
  | some h => exact h

lemma lookAlike_none_some_iff :
    LookAlike (app (.type .option) [a] annots w u) (app (.data .none) [] annots' w' u')
      (app (.data .some) [y] annots'' w'' u'') ↔ IsAbsent y := by
  refine ⟨fun h => ?_, fun h => .absent .none (.some h)⟩
  cases h with
  | absent _ hy =>
    cases hy with
    | some hy => exact hy

lemma lookAlike_some_none_iff :
    LookAlike (app (.type .option) [a] annots w u) (app (.data .some) [x] annots' w' u')
      (app (.data .none) [] annots'' w'' u'') ↔ IsAbsent x := by
  refine ⟨fun h => ?_, fun h => .absent (.some h) .none⟩
  cases h with
  | absent hx _ =>
    cases hx with
    | some hx => exact hx

lemma lookAlike_left_iff :
    LookAlike (app (.type .or) [a, b] annots w u) (app (.data .left) [x] annots' w' u')
      (app (.data .left) [y] annots'' w'' u'') ↔ LookAlike a x y := by
  refine ⟨fun h => ?_, .left⟩
  cases h with
  | absent hx _ => cases hx
  | left h => exact h

lemma lookAlike_right_iff :
    LookAlike (app (.type .or) [a, b] annots w u) (app (.data .right) [x] annots' w' u')
      (app (.data .right) [y] annots'' w'' u'') ↔ LookAlike b x y := by
  refine ⟨fun h => ?_, .right⟩
  cases h with
  | absent hx _ => cases hx
  | right h => exact h

lemma lookAlike_sides_iff :
    LookAlike (app (.type .or) [a, b] annots w u) (app (.data .left) [x] annots' w' u')
      (app (.data .right) [y] annots'' w'' u'') ↔
        sideName a "Left" = sideName b "Right" ∧ render ⟨a, x⟩ = render ⟨b, y⟩ := by
  refine ⟨fun h => ?_, fun h => .sides h.1 h.2⟩
  cases h with
  | absent hx _ => cases hx
  | sides hname h => exact ⟨hname, h⟩

lemma lookAlike_sides'_iff :
    LookAlike (app (.type .or) [a, b] annots w u) (app (.data .right) [y] annots' w' u')
      (app (.data .left) [x] annots'' w'' u'') ↔
        sideName a "Left" = sideName b "Right" ∧ render ⟨a, x⟩ = render ⟨b, y⟩ := by
  refine ⟨fun h => ?_, fun h => .sides' h.1 h.2⟩
  cases h with
  | absent hx _ => cases hx
  | sides' hname h => exact ⟨hname, h⟩

lemma lookAlike_pair_iff :
    LookAlike (app (.type .pair) [a, b] annots w u) (app (.data .pair) [x, y] annots' w' u')
      (app (.data .pair) [x', y'] annots'' w'' u'') ↔ LookAlike a x x' ∧ LookAlike b y y' := by
  refine ⟨fun h => ?_, fun h => .pair h.1 h.2⟩
  cases h with
  | absent hx _ => cases hx
  | pair hx hy => exact ⟨hx, hy⟩

lemma lookAlike_literal_iff {l l' : Literal} :
    LookAlike k (literal l u) (literal l' u') ↔ l = l' := by
  refine ⟨fun h => ?_, fun h => h ▸ .literal l⟩
  cases h with
  | literal => rfl
  | absent hx _ => cases hx

/-! ### Every key is rendered -/

/-- A key is rendered, as `null` exactly if it is absent and as the text "null" exactly if it spells
that. -/
def IsRendered (k x : Expr) : Prop :=
  ∃ j, render ⟨k, x⟩ = .ok j ∧ j.IsWhole ∧ (j = .null ↔ IsAbsent x) ∧
    (j = .text "null" ↔ SpellsNull x)

/-- The fields that a key stands for in a pair around it are rendered. -/
def HasFields (k x : Expr) : Prop :=
  ∃ fs is, fieldsIn k x = some fs ∧
    List.Forall₂ (fun f i => render f = .ok i ∧ i.IsWhole) fs is

/-- A key that is no pair to be merged is its own only field. -/
lemma IsRendered.hasFields (h : IsRendered k x) (hmerged : isMerged k = false) :
    IsRendered k x ∧ HasFields k x := by
  obtain ⟨j, hj, hwhole, -⟩ := id h
  have hfields : fieldsIn k x = some [⟨k, x⟩] := by
    rw [fieldsIn, hmerged]
    rfl
  exact ⟨h, _, _, hfields, .cons ⟨hj, hwhole⟩ .nil⟩

/-- A key that is neither absent nor spells "null". -/
lemma isRendered_of_ne (hj : render ⟨k, x⟩ = .ok j) (hwhole : j.IsWhole) (hnull : j ≠ .null)
    (htext : j ≠ .text "null") (habsent : ¬ IsAbsent x) (hspells : ¬ SpellsNull x) :
    IsRendered k x :=
  ⟨j, hj, hwhole, iff_of_false hnull habsent, iff_of_false htext hspells⟩

lemma isWhole_renderInt (n : Int) : (renderInt n).IsWhole := by
  rw [renderInt]
  split
  · exact .int n
  · exact .text _

lemma renderInt_ne (n : Int) : renderInt n ≠ .null ∧ renderInt n ≠ .text "null" := by
  rw [renderInt]
  split
  · exact ⟨nofun, nofun⟩
  · exact ⟨nofun, fun h => toString_ne_null n (Json.text.inj h)⟩

/-- The pair of two keys whose fields are rendered. -/
lemma HasFields.pair (hx : HasFields a x) (hy : HasFields b y)
    (hb : b.isPair → b.applies (.type .pair)) :
    IsRendered (app (.type .pair) [a, b] annots w u) (app (.data .pair) [x, y] annots' w' u') ∧
      HasFields (app (.type .pair) [a, b] annots w u)
        (app (.data .pair) [x, y] annots' w' u') := by
  obtain ⟨fs, is, hfs, his⟩ := hx
  obtain ⟨gs, js, hgs, hjs⟩ := hy
  have hfields : fields (app (.type .pair) [a, b] annots w u)
      (app (.data .pair) [x, y] annots' w' u') = some (fs ++ gs) := by
    rw [fields_pair hb, hfs, hgs]
    rfl
  have hforall := List.rel_append his hjs
  have hrendered : IsRendered (app (.type .pair) [a, b] annots w u)
      (app (.data .pair) [x, y] annots' w' u') := by
    exact isRendered_of_ne (render_of_fields hfields hforall) (isWhole_ofMembers hforall)
      nofun nofun nofun nofun
  cases hmerged : isMerged (app (.type .pair) [a, b] annots w u) with
  | true => exact ⟨hrendered, _, _, by rw [fieldsIn, hmerged]; exact hfields, hforall⟩
  | false => exact hrendered.hasFields hmerged

lemma KeyFits.renders (h : KeyFits k x) : IsRendered k x ∧ HasFields k x := by
  induction h with
  | text s =>
    refine IsRendered.hasFields ?_ rfl
    refine ⟨.text s, render_leaf rfl, .text s, iff_of_false nofun nofun, fun h => ?_, fun h => ?_⟩
    · cases h
      exact .text
    · cases h
      rfl
  | int n | nat n =>
    exact IsRendered.hasFields (isRendered_of_ne (render_leaf rfl) (isWhole_renderInt n)
      (renderInt_ne n).1 (renderInt_ne n).2 nofun nofun) rfl
  | bytes b =>
    exact IsRendered.hasFields (isRendered_of_ne (render_leaf rfl) (.text (Bytes.toHex b)) nofun
      (fun h => toHex_ne_null b (Json.text.inj h)) nofun nofun) rfl
  | true =>
    exact IsRendered.hasFields
      (isRendered_of_ne (render_leaf rfl) (.bool Bool.true) nofun nofun nofun nofun) rfl
  | false =>
    exact IsRendered.hasFields
      (isRendered_of_ne (render_leaf rfl) (.bool Bool.false) nofun nofun nofun nofun) rfl
  | unit =>
    exact IsRendered.hasFields ⟨.null, render_leaf rfl, .null, iff_of_true rfl .unit,
      iff_of_false nofun nofun⟩ rfl
  | none =>
    exact IsRendered.hasFields ⟨.null, render_none, .null, iff_of_true rfl .none,
      iff_of_false nofun nofun⟩ rfl
  | some h ih =>
    obtain ⟨j, hj, hwhole, hnull, htext⟩ := ih.1
    refine IsRendered.hasFields ⟨j, render_some.trans hj, hwhole, hnull.trans ⟨.some, fun h => ?_⟩,
      htext.trans ⟨.some, fun h => ?_⟩⟩ rfl
    · cases h with
      | some h => exact h
    · cases h with
      | some h => exact h
  | left h ih =>
    obtain ⟨j, hj, hwhole, -⟩ := ih.1
    refine IsRendered.hasFields (isRendered_of_ne (by rw [render_left, hj]; rfl)
      (.object (List.forall_mem_singleton.2 hwhole)) nofun nofun nofun nofun) rfl
  | right h ih =>
    obtain ⟨j, hj, hwhole, -⟩ := ih.1
    refine IsRendered.hasFields (isRendered_of_ne (by rw [render_right, hj]; rfl)
      (.object (List.forall_mem_singleton.2 hwhole)) nofun nofun nofun nofun) rfl
  | pair hx hy ihx ihy => exact ihx.2.pair ihy.2 hy.applies_of_isPair

/-! ### Keys that are rendered alike look alike -/

lemma RenderAlike.fieldsAlike (h : RenderAlike ⟨k, x⟩ ⟨k, y⟩ P) (hmerged : isMerged k = false) :
    RenderAlike ⟨k, x⟩ ⟨k, y⟩ P ∧ FieldsAlike (fieldsIn k x) (fieldsIn k y) P := by
  rw [fieldsIn, fieldsIn, hmerged]
  exact ⟨h, h.singleton rfl⟩

lemma renderAlike_of_iff (hx : render ⟨k, x⟩ = .ok i) (hy : render ⟨k, y⟩ = .ok j)
    (hi : i.IsWhole) (hj : j.IsWhole) (h : i = j ↔ P) : RenderAlike ⟨k, x⟩ ⟨k, y⟩ P :=
  ⟨i, j, hx, hy, hi, hj, h⟩

lemma int_alike {n m : Int} {type : Expr}
    (hx : render ⟨type, literal (.int n) u⟩ = .ok (renderInt n))
    (hy : render ⟨type, literal (.int m) u'⟩ = .ok (renderInt m)) :
    RenderAlike ⟨type, literal (.int n) u⟩ ⟨type, literal (.int m) u'⟩
      (LookAlike type (literal (.int n) u) (literal (.int m) u')) := by
  refine renderAlike_of_iff hx hy (isWhole_renderInt n) (isWhole_renderInt m) ?_
  rw [lookAlike_literal_iff, Literal.int.injEq]
  exact renderInt_injective.eq_iff

/-- Two sides of a choice are rendered to the same exactly if they have one name and what is on them
is rendered to the same. -/
lemma RenderAlike.sides {name name' : String} (h : RenderAlike v t P)
    (hx : render ⟨k, x⟩ = (render v).map fun i => .object [(name, i)])
    (hy : render ⟨k, y⟩ = (render t).map fun j => .object [(name', j)]) :
    RenderAlike ⟨k, x⟩ ⟨k, y⟩ (name = name' ∧ P) := by
  obtain ⟨i, j, hi, hj, hwhole, hwhole', heq⟩ := h
  rw [hi] at hx
  rw [hj] at hy
  refine renderAlike_of_iff hx hy (.object (List.forall_mem_singleton.2 hwhole))
    (.object (List.forall_mem_singleton.2 hwhole')) ?_
  rw [← heq]
  simp

lemma IsRendered.alike (hx : IsRendered a x) (hy : IsRendered b y) :
    RenderAlike ⟨a, x⟩ ⟨b, y⟩ (render ⟨a, x⟩ = render ⟨b, y⟩) := by
  obtain ⟨i, hi, hwhole, -⟩ := hx
  obtain ⟨j, hj, hwhole', -⟩ := hy
  refine ⟨i, j, hi, hj, hwhole, hwhole', ?_⟩
  rw [hi, hj, Except.ok.injEq]

/-- Two pairs are rendered to the same exactly if the fields that their parts stand for are. -/
lemma FieldsAlike.pair (hx : FieldsAlike (fieldsIn a x) (fieldsIn a x') P)
    (hy : FieldsAlike (fieldsIn b y) (fieldsIn b y') Q)
    (hb : b.isPair → b.applies (.type .pair)) :
    RenderAlike ⟨app (.type .pair) [a, b] annots w u, app (.data .pair) [x, y] annots' w' u'⟩
        ⟨app (.type .pair) [a, b] annots w u, app (.data .pair) [x', y'] annots'' w'' u''⟩
        (P ∧ Q) ∧
      FieldsAlike (fieldsIn (app (.type .pair) [a, b] annots w u)
          (app (.data .pair) [x, y] annots' w' u'))
        (fieldsIn (app (.type .pair) [a, b] annots w u)
          (app (.data .pair) [x', y'] annots'' w'' u'')) (P ∧ Q) := by
  have hfields : FieldsAlike
      (fields (app (.type .pair) [a, b] annots w u) (app (.data .pair) [x, y] annots' w' u'))
      (fields (app (.type .pair) [a, b] annots w u) (app (.data .pair) [x', y'] annots'' w'' u''))
      (P ∧ Q) := by
    rw [fields_pair hb, fields_pair hb]
    exact hx.append hy
  cases hmerged : isMerged (app (.type .pair) [a, b] annots w u) with
  | true =>
    rw [fieldsIn, fieldsIn, hmerged]
    exact ⟨hfields.render, hfields⟩
  | false => exact hfields.render.fieldsAlike hmerged

/-- Two keys of a type are rendered to the same exactly if they look alike. -/
theorem KeyFits.alike (hx : KeyFits k x) (hy : KeyFits k y) :
    RenderAlike ⟨k, x⟩ ⟨k, y⟩ (LookAlike k x y) ∧
      FieldsAlike (fieldsIn k x) (fieldsIn k y) (LookAlike k x y) := by
  induction hx generalizing y with
  | text s =>
    cases hy with
    | text t =>
      refine RenderAlike.fieldsAlike ?_ rfl
      refine renderAlike_of_iff (render_leaf rfl) (render_leaf rfl) (.text s) (.text t) ?_
      rw [lookAlike_literal_iff, Literal.string.injEq]
      exact ⟨Json.text.inj, congrArg Json.text⟩
  | int n =>
    cases hy with
    | int m => exact RenderAlike.fieldsAlike (int_alike (render_leaf rfl) (render_leaf rfl)) rfl
  | nat n =>
    cases hy with
    | nat m => exact RenderAlike.fieldsAlike (int_alike (render_leaf rfl) (render_leaf rfl)) rfl
  | bytes b =>
    cases hy with
    | bytes c =>
      refine RenderAlike.fieldsAlike ?_ rfl
      refine renderAlike_of_iff (render_leaf rfl) (render_leaf rfl) (.text _) (.text _) ?_
      rw [lookAlike_literal_iff, Literal.bytes.injEq]
      exact ⟨fun h => Bytes.toHex_injective (Json.text.inj h),
        congrArg fun b => Json.text (Bytes.toHex b)⟩
  | true =>
    cases hy with
    | true =>
      exact RenderAlike.fieldsAlike (renderAlike_of_iff (render_leaf rfl) (render_leaf rfl)
        (.bool Bool.true) (.bool Bool.true) (iff_of_true rfl (.constant _))) rfl
    | false =>
      exact RenderAlike.fieldsAlike (renderAlike_of_iff (render_leaf rfl) (render_leaf rfl)
        (.bool Bool.true) (.bool Bool.false) (iff_of_false nofun nofun)) rfl
  | false =>
    cases hy with
    | true =>
      exact RenderAlike.fieldsAlike (renderAlike_of_iff (render_leaf rfl) (render_leaf rfl)
        (.bool Bool.false) (.bool Bool.true) (iff_of_false nofun nofun)) rfl
    | false =>
      exact RenderAlike.fieldsAlike (renderAlike_of_iff (render_leaf rfl) (render_leaf rfl)
        (.bool Bool.false) (.bool Bool.false) (iff_of_true rfl (.constant _))) rfl
  | unit =>
    cases hy with
    | unit =>
      exact RenderAlike.fieldsAlike (renderAlike_of_iff (render_leaf rfl) (render_leaf rfl)
        .null .null (iff_of_true rfl (.constant _))) rfl
  | none =>
    cases hy with
    | none =>
      exact RenderAlike.fieldsAlike (renderAlike_of_iff render_none render_none .null .null
        (iff_of_true rfl (.constant _))) rfl
    | some hy =>
      obtain ⟨j, hj, hwhole, hnull, -⟩ := hy.renders.1
      refine RenderAlike.fieldsAlike (renderAlike_of_iff render_none (render_some.trans hj) .null
        hwhole ?_) rfl
      rw [lookAlike_none_some_iff, eq_comm, hnull]
  | some hx ih =>
    cases hy with
    | none =>
      obtain ⟨j, hj, hwhole, hnull, -⟩ := hx.renders.1
      refine RenderAlike.fieldsAlike (renderAlike_of_iff (render_some.trans hj) render_none hwhole
        .null ?_) rfl
      rw [lookAlike_some_none_iff, hnull]
    | some hy =>
      obtain ⟨i, j, hi, hj, hwhole, hwhole', heq⟩ := (ih hy).1
      refine RenderAlike.fieldsAlike (renderAlike_of_iff (render_some.trans hi)
        (render_some.trans hj) hwhole hwhole' ?_) rfl
      rw [lookAlike_some_iff, heq]
  | left hx ih =>
    cases hy with
    | left hy =>
      refine RenderAlike.fieldsAlike (((ih hy).1.sides render_left render_left).of_iff ?_) rfl
      rw [lookAlike_left_iff, and_iff_right rfl]
    | right hy =>
      have hsides := hx.renders.1.alike hy.renders.1
      exact RenderAlike.fieldsAlike ((hsides.sides render_left render_right).of_iff
        lookAlike_sides_iff.symm) rfl
  | right hx ih =>
    cases hy with
    | left hy =>
      have hsides := hx.renders.1.alike hy.renders.1
      refine RenderAlike.fieldsAlike ((hsides.sides render_right render_left).of_iff ?_) rfl
      rw [lookAlike_sides'_iff]
      exact and_congr eq_comm eq_comm
    | right hy =>
      refine RenderAlike.fieldsAlike (((ih hy).1.sides render_right render_right).of_iff ?_) rfl
      rw [lookAlike_right_iff, and_iff_right rfl]
  | pair hx hy' ihx ihy =>
    cases hy with
    | pair hx' hy =>
      rw [lookAlike_pair_iff]
      exact (ihx hx').2.pair (ihy hy).2 hy.applies_of_isPair

end TypedValue

end Michelson
