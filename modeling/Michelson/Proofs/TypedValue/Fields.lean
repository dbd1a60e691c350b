/-
# The parts that a value is gone through by

The fields of a pair are found along the right spine of its type and then once more inside every
field that is a pair without a label.  For a pair of two parts this comes to the fields of the first
part and those of the second, where a part that is no such pair is a field of its own
(`exists_of_fields_pair`).  So a proof about the fields of a pair can follow the nesting of its type.

Every value with parts is a pair, a list or a set, or a map, and its parts are its fields, its items
or its entries (`divides_of_parts`).  Their names do not matter for which parts there are
(`exists_of_children`).
-/
import Michelson.Proofs.Except
import Michelson.Proofs.Expr.Comb
import Michelson.Proofs.Expr.Traversal
import Michelson.Proofs.Names
import Michelson.TypedValue.Path

namespace Michelson

namespace TypedValue

open Michelson.Expr

/-! ### Fields of a pair -/

/-- The fields that a part of a pair stands for. -/
def fieldsIn (type value : Expr) : Option (List TypedValue) :=
  if isMerged type then fields type value else some [⟨type, value⟩]

/-- The fields of the parts along a spine. -/
def spineFields (parts : List Expr) (value : Expr) : Option (List TypedValue) :=
  (splitSpine parts.length value).bind fun values =>
    ((parts.zip values).mapM fun part => fieldsIn part.1 part.2).map List.flatten

lemma mapM_attach_zip {α β γ : Type} (f : α × β → Option γ) (as : List α) (bs : List β) :
    (as.attach.zip bs).mapM (fun part => f (part.1.val, part.2)) = (as.zip bs).mapM f := by
  change (as.attach.zip bs).mapM (f ∘ Prod.map Subtype.val id) = _
  rw [← List.mapM_map, ← List.zip_map_left, List.attach_map_subtype_val]

variable {p : Primitive} {type value a b x y : Expr} {annots annots' : List String}
  {w u w' u' : Bool}

lemma fields_eq (hp : type.isPair) (hargs : type.args.isEmpty = false) :
    fields type value = spineFields type.combParts value := by
  rw [fields, dif_pos ⟨hp, hargs⟩, spineFields]
  refine Option.bind_congr fun values _ => ?_
  rw [← mapM_attach_zip fun part : Expr × Expr => fieldsIn part.1 part.2, Option.map_eq_bind]
  rfl

/-- A pair type without arguments is its own field, unless it would be merged into itself. -/
lemma fields_of_args_isEmpty (hp : type.isPair) (hargs : type.args.isEmpty) :
    fields type value = if isMerged type then none else some [⟨type, value⟩] := by
  rw [fields, dif_neg (by simp [hargs]), hp]
  cases isMerged type <;> rfl

lemma fields_of_not_isPair (h : type.isPair = false) : fields type value = none := by
  rw [fields, dif_neg (by simp [h]), h]
  rfl

lemma spineFields_singleton (type value : Expr) :
    spineFields [type] value = fieldsIn type value := by
  cases h : fieldsIn type value <;> simp [spineFields, splitSpine, h]

lemma spineFields_cons {parts : List Expr} (hne : parts ≠ []) :
    spineFields (a :: parts) (app (.data .pair) [x, y] annots w u) =
      (fieldsIn a x).bind fun front => (spineFields parts y).map (front ++ ·) := by
  obtain ⟨b, rest, rfl⟩ := List.exists_cons_of_ne_nil hne
  have hsplit : splitSpine (a :: b :: rest).length (app (.data .pair) [x, y] annots w u) =
      (splitSpine (b :: rest).length y).map (x :: ·) := rfl
  rw [spineFields, hsplit, spineFields]
  cases splitSpine (b :: rest).length y with
  | none => cases fieldsIn a x <;> rfl
  | some values =>
    rw [Option.map_some, Option.bind_some, Option.bind_some, List.zip_cons_cons, List.mapM_cons]
    cases fieldsIn a x with
    | none => rfl
    | some front => cases ((b :: rest).zip values).mapM fun part => fieldsIn part.1 part.2 <;> rfl

lemma spineFields_of_ne_pair {parts : List Expr} (hne : parts ≠ []) (hp : p ≠ .data .pair) :
    spineFields (a :: parts) (app p [x, y] annots w u) = none := by
  obtain ⟨b, rest, rfl⟩ := List.exists_cons_of_ne_nil hne
  rw [spineFields, List.length_cons, List.length_cons, splitSpine, if_neg]
  · rfl
  · simp [applies, prim?, isSequence, hp]

/-- A spine that goes on in a pair without annotations finds the fields of that pair. -/
lemma spineFields_combParts (hpair : type.applies (.type .pair)) (hannots : type.annots = []) :
    spineFields type.combParts value = fieldsIn type value := by
  have hp : type.isPair := isPair_of_applies hpair
  have hmerged : isMerged type := by simp [isMerged, hpair, label?_eq_none_of_annots hannots]
  by_cases hargs : type.args.isEmpty
  · rw [combParts_of_args_isEmpty hargs, spineFields_singleton]
  · rw [fieldsIn, if_pos hmerged, fields_eq hp (by simpa using hargs)]

/-- The fields of a pair of two parts are those of the first part and then those of the second. -/
lemma fields_pair (hb : b.isPair → b.applies (.type .pair)) :
    fields (app (.type .pair) [a, b] annots w u) (app (.data .pair) [x, y] annots' w' u') =
      (fieldsIn a x).bind fun front => (fieldsIn b y).map (front ++ ·) := by
  rw [fields_eq rfl rfl, combParts_pair rfl a b]
  -- the second part continues the spine, or it ends it as a field of its own
  split
  · next hspine =>
    obtain ⟨hpair, hannots⟩ := Bool.and_eq_true_iff.1 hspine
    rw [spineFields_cons (combParts_ne_nil b),
      spineFields_combParts (hb hpair) (List.isEmpty_iff.1 hannots)]
  · rw [spineFields_cons (List.cons_ne_nil b []), spineFields_singleton]

lemma exists_of_fields_pair (hb : b.isPair → b.applies (.type .pair)) {fs : List TypedValue}
    (h : fields (app (.type .pair) [a, b] annots w u) (app p [x, y] annots' w' u') = some fs) :
    ∃ front back, fieldsIn a x = some front ∧ fieldsIn b y = some back ∧ fs = front ++ back := by
  by_cases hp : p = .data .pair
  · subst hp
    rw [fields_pair hb] at h
    obtain ⟨front, hfront, h⟩ := Option.bind_eq_some_iff.1 h
    obtain ⟨back, hback, rfl⟩ := Option.map_eq_some_iff.1 h
    exact ⟨front, back, hfront, hback, rfl⟩
  · have hne : (if b.isPair && b.annots.isEmpty then b.combParts else [b]) ≠ [] := by
      split
      · exact combParts_ne_nil b
      · exact List.cons_ne_nil b []
    rw [fields_eq rfl rfl, combParts_pair rfl a b, spineFields_of_ne_pair hne hp] at h
    cases h

/-! ### Where parts come from -/

/-- What the parts of a value are: the fields of a pair, the items of a list or a set, the entries
of a map, or none. -/
inductive Divides (v : TypedValue) : List Part → Prop
  | pair {args : List Expr} {annots : List String} {w u : Bool} {fs : List TypedValue} :
      v.type = app (.type .pair) args annots w u → fields v.type v.value = some fs →
      Divides v (nameFields fs)
  | items {p : Primitive} {a : Expr} {more elements : List Expr} {annots : List String}
      {w u u' : Bool} : v.type = app p (a :: more) annots w u → p = .type .list ∨ p = .type .set →
      v.value = seq elements u' →
      Divides v (elements.mapIdx fun i x => .named (toString i) ⟨a, x⟩)
  | entries {p : Primitive} {a b : Expr} {entries : List Expr} {annots : List String}
      {w u u' : Bool} : v.type = app p [a, b] annots w u → p = .type .map ∨ p = .type .bigMap →
      v.value = seq entries u' → Divides v (entries.map (entry a b))
  | none : Divides v []

section

variable {v : TypedValue} {args : List Expr} {ps : List Part}

lemma items_eq_ok_iff {elements : List Expr} :
    v.items = .ok elements ↔ ∃ u, v.value = seq elements u := by
  rw [TypedValue.items]
  cases v.value <;> simp

lemma divides_of_itemParts (hv : v.type = app p args annots w u)
    (hp : p = .type .list ∨ p = .type .set) (h : itemParts v args = .ok ps) : Divides v ps := by
  match args, h with
  | a :: more, h =>
    obtain ⟨elements, helements, h⟩ := Except.bind_eq_ok_iff.1 h
    obtain ⟨u', hvalue⟩ := items_eq_ok_iff.1 helements
    cases h
    exact .items hv hp hvalue

lemma divides_of_entryParts (hv : v.type = app p args annots w u)
    (hp : p = .type .map ∨ p = .type .bigMap) (h : entryParts v args = .ok ps) : Divides v ps := by
  unfold entryParts at h
  split at h
  -- a big map that stands as its number
  · cases h
    exact .none
  · split at h
    · obtain ⟨entries, hentries, h⟩ := Except.bind_eq_ok_iff.1 h
      obtain ⟨u', hvalue⟩ := items_eq_ok_iff.1 hentries
      cases h
      exact .entries hv hp hvalue
    · cases h

lemma divides_of_parts (h : v.parts = .ok ps) : Divides v ps := by
  unfold parts at h
  split at h
  · next hv =>
    split at h
    · next hfs =>
      cases h
      exact .pair hv hfs
    · cases h
  · next hv => exact divides_of_itemParts hv (.inl rfl) h
  · next hv => exact divides_of_itemParts hv (.inr rfl) h
  · next hv => exact divides_of_entryParts hv (.inl rfl) h
  · next hv => exact divides_of_entryParts hv (.inr rfl) h
  · cases h
    exact .none

end

/-! ### Parts without their names -/

lemma exists_of_children {v : TypedValue} {cs : List (String × TypedValue)}
    (h : v.children = .ok cs) :
    ∃ ps, v.parts = .ok ps ∧ cs.map Prod.snd = ps.filterMap Part.child? := by
  obtain ⟨ps, hps, h⟩ := Except.bind_eq_ok_iff.1 h
  obtain ⟨names, hnames, h⟩ := Except.bind_eq_ok_iff.1 h
  cases h
  refine ⟨ps, hps, List.map_snd_zip ?_⟩
  rw [Except.length_eq_of_mapM hnames]
  exact List.length_filterMap_le _ ps

/-! ### Named fields -/

/-- The names of fields of these types. -/
def fieldNames (types : List Expr) : List String :=
  Names.assign (fun used (p : Expr × Nat) =>
    Names.freshOr used (p.1.label? <|> some (toString p.2)) "field") [] types.zipIdx

lemma nodup_fieldNames (types : List Expr) : (fieldNames types).Nodup :=
  Names.nodup_assign (fun used _ => Names.freshOr_not_mem used _ _) [] _

lemma length_fieldNames (types : List Expr) : (fieldNames types).length = types.length := by
  rw [fieldNames, Names.length_assign, List.length_zipIdx]

/-- The names of fields depend on their types only. -/
lemma nameFields_eq (fs : List TypedValue) :
    nameFields fs = ((fieldNames (fs.map TypedValue.type)).zip fs).map fun p => .named p.1 p.2 := by
  rw [nameFields, fieldNames, List.zipIdx_map, Names.assign_map]
  rfl

lemma filterMap_child?_nameFields (fs : List TypedValue) :
    (nameFields fs).filterMap Part.child? = fs := by
  rw [nameFields_eq, List.filterMap_map]
  have hsnd : ((fieldNames (fs.map TypedValue.type)).zip fs).map Prod.snd = fs :=
    List.map_snd_zip (by rw [length_fieldNames, List.length_map])
  exact (congrFun List.filterMap_eq_map _).trans hsnd

lemma children_of_nameFields {v : TypedValue} {fs : List TypedValue}
    (h : v.parts = .ok (nameFields fs)) :
    v.children = .ok ((fieldNames (fs.map TypedValue.type)).zip fs) := by
  have hnames : (nameFields fs).mapM v.partName = .ok (fieldNames (fs.map TypedValue.type)) := by
    have hfst : ((fieldNames (fs.map TypedValue.type)).zip fs).map Prod.fst =
        fieldNames (fs.map TypedValue.type) :=
      List.map_fst_zip (by rw [length_fieldNames, List.length_map])
    rw [nameFields_eq, List.mapM_map]
    exact (Except.mapM_eq_ok_of_forall fun _ _ => rfl).trans (congrArg Except.ok hfst)
  rw [children, h, Except.ok_bind, hnames, Except.ok_bind, filterMap_child?_nameFields]
  rfl

lemma parts_pair {args : List Expr} : parts ⟨app (.type .pair) args annots w u, value⟩ =
    match fields (app (.type .pair) args annots w u) value with
    | some fs => .ok (nameFields fs)
    | none => .error (mismatch ⟨app (.type .pair) args annots w u, value⟩) := rfl

lemma parts_of_fields {v : TypedValue} {args : List Expr} {fs : List TypedValue}
    (hv : v.type = app (.type .pair) args annots w u) (h : fields v.type v.value = some fs) :
    v.parts = .ok (nameFields fs) := by
  obtain ⟨type, value⟩ := v
  obtain rfl : type = app (.type .pair) args annots w u := hv
  rw [parts_pair]
  simp only [h]

lemma fields_of_children_pair {args : List Expr} {cs : List (String × TypedValue)}
    (h : children ⟨app (.type .pair) args annots w u, value⟩ = .ok cs) :
    fields (app (.type .pair) args annots w u) value = some (cs.map Prod.snd) := by
  obtain ⟨ps, hps, hcs⟩ := exists_of_children h
  rw [parts_pair] at hps
  split at hps
  · next fs hfields =>
    cases hps
    rw [hfields, hcs, filterMap_child?_nameFields]
  · cases hps

/-! ### Pairs without arguments -/

lemma isBarePair_iff {type : Expr} :
    isBarePair type ↔ type.applies (.type .pair) ∧ type.args.isEmpty :=
  Bool.and_eq_true_iff

/-- A pair without arguments is its own only part, if it has parts. -/
lemma parts_of_isBarePair {v : TypedValue} (h : isBarePair v.type) :
    v.parts = .error v.mismatch ∨ ∃ name, v.parts = .ok [.named name v] := by
  obtain ⟨type, value⟩ := v
  obtain ⟨hpair, hargs⟩ := isBarePair_iff.1 h
  cases type with
  | literal l u => cases hpair
  | seq items u => cases hpair
  | app p args annots w u =>
    obtain rfl : p = .type .pair := Option.some.inj (applies_iff.1 hpair)
    obtain ⟨name, hname⟩ := List.length_eq_one_iff.1
      (length_fieldNames [app (.type .pair) args annots w u])
    rw [parts_pair, fields_of_args_isEmpty rfl hargs]
    cases isMerged (app (.type .pair) args annots w u) with
    | true => exact .inl rfl
    | false =>
      right
      refine ⟨name, ?_⟩
      rw [if_neg Bool.false_ne_true]
      dsimp only
      rw [nameFields_eq, List.map_singleton, hname]
      rfl

lemma children_of_isBarePair {v : TypedValue} (h : isBarePair v.type) :
    v.children = .error v.mismatch ∨ ∃ name, v.children = .ok [(name, v)] := by
  rcases parts_of_isBarePair h with hparts | ⟨name, hparts⟩
  · left
    rw [children, hparts]
    rfl
  · right
    refine ⟨name, ?_⟩
    rw [children, hparts]
    rfl

/-! ### Items and entries -/

lemma map_snd_of_children_list {more elements : List Expr} {cs : List (String × TypedValue)}
    (h : children ⟨app (.type .list) (a :: more) annots w u, seq elements u'⟩ = .ok cs) :
    cs.map Prod.snd = elements.map fun x => ⟨a, x⟩ := by
  obtain ⟨ps, hps, hcs⟩ := exists_of_children h
  cases hps
  rw [hcs, List.mapIdx_eq_zipIdx_map, List.filterMap_map]
  calc _ = (elements.zipIdx.map Prod.fst).map fun x => (⟨a, x⟩ : TypedValue) := by
        rw [List.map_map, ← List.filterMap_eq_map]
        rfl
    _ = _ := by rw [List.zipIdx_map_fst]

lemma map_snd_of_children_map {more entries : List Expr} {cs : List (String × TypedValue)}
    (h : children ⟨app (.type .map) (a :: b :: more) annots w u, seq entries u'⟩ = .ok cs) :
    cs.map Prod.snd = entries.filterMap fun e => (entry a b e).child? := by
  obtain ⟨ps, hps, hcs⟩ := exists_of_children h
  match more with
  | [] =>
    cases hps
    rw [hcs, List.filterMap_map]
    rfl
  | _ :: _ => cases hps

lemma children_of_parts_nil {v : TypedValue} (h : v.parts = .ok []) : v.children = .ok [] := by
  rw [children, h]
  rfl

end TypedValue

end Michelson
