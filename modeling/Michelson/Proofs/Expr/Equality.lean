/-
# Equality of trees

The JSON form shows all that a comparison with annotations looks at: the texts of numbers and byte
strings and the names of primitives tell these apart, and a member that is left out says that its
list is empty.  So two trees are the same exactly when their JSON forms are (`same_iff_toJson`).
A comparison without annotations is one of the trees without their annotations
(`compare_withoutAnnots`), and no comparison looks at flags (`compare_withoutFlags`).

Both of the last two are about a function that treats all nodes alike, and go through a list of
parts in one way (`compareAll_map_map`).  The main statement is `same_and_sameShape_by_json`.
-/
import Michelson.Proofs.Bytes.Hex
import Michelson.Proofs.Expr.Same

namespace Michelson.Expr

variable {a b : Expr} {es es' : List Expr} {annotated annotated' : Bool}

/-! ### JSON forms that are equal -/

lemma toJsonAll_canonicalAll (h : ∀ e ∈ es, e.canonical.toJson = e.toJson) :
    toJsonAll (canonicalAll es) = toJsonAll es := by
  induction es with
  | nil => rfl
  | cons e es ih =>
    obtain ⟨he, hes⟩ := List.forall_mem_cons.1 h
    rw [canonicalAll, toJsonAll, toJsonAll, he, ih hes]

/-- The JSON form shows nothing that the canonical form has lost. -/
lemma toJson_canonical (e : Expr) : e.canonical.toJson = e.toJson := by
  induction e using Expr.induct with
  | literal l u => cases l <;> rfl
  | seq items u ih => rw [canonical, toJson, toJson, toJsonAll_canonicalAll ih]
  | app p args annots w u ih =>
    have hempty : (canonicalAll args).isEmpty = args.isEmpty := by
      rw [canonicalAll_eq_map, List.isEmpty_map]
    rw [canonical, toJson, toJson, toJsonAll_canonicalAll ih, hempty]

lemma eq_of_toJson_literal {l l' : Literal} {u u' : Bool}
    (h : (literal l u).toJson = (literal l' u').toJson) : l = l' := by
  cases l <;> cases l' <;> simp only [toJson, Json.object.injEq, List.cons.injEq, Prod.mk.injEq,
    Json.text.injEq, and_true] at h
  case int.int => rw [Decimal.toString_injective h.2]
  case string.string => rw [h.2]
  case bytes.bytes => rw [Bytes.toHex_injective h.2]
  -- literals of different sorts have different names for their members
  all_goals exact absurd h.1 (by decide)

/-- Only an application has a member for a primitive. -/
lemma toJson_literal_ne_app {l : Literal} {p : Primitive} {args : List Expr} {annots : List String}
    {u w u' : Bool} : (literal l u).toJson ≠ (app p args annots w u').toJson := by
  obtain ⟨members, hmembers, hprim, -, -⟩ := exists_members p args annots w u'
  intro h
  rw [hmembers] at h
  cases l <;> cases h <;> cases hprim

/-- A list that is shown as a member unless it is empty can be told from the member, or from there
being none. -/
lemma values_eq_of_member_eq {α : Type} (f : List α → List Json) {l l' : List α}
    (h : (if l.isEmpty then none else some (Json.array (f l))) =
      if l'.isEmpty then none else some (Json.array (f l'))) : f l = f l' := by
  cases l with
  | nil =>
    cases l' with
    | nil => rfl
    | cons x l' => cases h
  | cons x l =>
    cases l' with
    | nil => cases h
    | cons x' l' => exact Json.array.inj (Option.some.inj h)

lemma compareAll_of_toJsonAll_eq (h : ∀ e ∈ es, ∀ e', e.toJson = e'.toJson → same e e')
    (heq : toJsonAll es = toJsonAll es') : compareAll true es es' := by
  induction es generalizing es' with
  | nil =>
    cases es' with
    | nil => rfl
    | cons e' es' => cases heq
  | cons e es ih =>
    obtain ⟨he, hes⟩ := List.forall_mem_cons.1 h
    cases es' with
    | nil => cases heq
    | cons e' es' =>
      obtain ⟨hhead, htail⟩ := List.cons.inj heq
      have hsame : compare true e e' := he e' hhead
      rw [compareAll, hsame, ih hes htail]
      rfl

/-- Trees with the same JSON form are the same. -/
lemma same_of_toJson_eq (h : a.toJson = b.toJson) : same a b := by
  induction a using Expr.induct generalizing b with
  | literal l u =>
    cases b with
    | literal l' u' => simp [same, compare, eq_of_toJson_literal h]
    | seq items u' => cases l <;> cases h
    | app q args annots w u' => exact absurd h toJson_literal_ne_app
  | seq items u ih =>
    cases b with
    | literal l u' => cases l <;> cases h
    | seq items' u' => exact compareAll_of_toJsonAll_eq (fun e he e' => ih e he) (Json.array.inj h)
    | app q args annots w u' => cases h
  | app p args annots w u ih =>
    cases b with
    | literal l u' => exact absurd h.symm toJson_literal_ne_app
    | seq items u' => cases h
    | app q args' annots' w' u' =>
      obtain ⟨members, hmembers, hprim, hargs, hannots⟩ := exists_members p args annots w u
      obtain ⟨members', hmembers', hprim', hargs', hannots'⟩ := exists_members q args' annots' w' u'
      obtain rfl : members = members' := Json.object.inj (hmembers.symm.trans (h.trans hmembers'))
      have hp : p = q :=
        Primitive.name_injective (Json.text.inj (Option.some.inj (hprim.symm.trans hprim')))
      have hvalues : toJsonAll args = toJsonAll args' :=
        values_eq_of_member_eq toJsonAll (hargs.symm.trans hargs')
      have htexts : annots.map Json.text = annots'.map Json.text :=
        values_eq_of_member_eq (List.map Json.text) (hannots.symm.trans hannots')
      have hlists : annots = annots' := List.map_injective_iff.2 (fun _ _ => Json.text.inj) htexts
      rw [same, compare, hp, hlists, compareAll_of_toJsonAll_eq (fun e he e' => ih e he) hvalues]
      simp

/-- Two trees are the same exactly when they have one JSON form. -/
theorem same_iff_toJson : same a b ↔ a.toJson = b.toJson := by
  constructor
  · intro h
    rw [← toJson_canonical a, same_iff_canonical_eq.1 h, toJson_canonical]
  · exact same_of_toJson_eq

/-! ### Trees with less to compare -/

mutual

/-- The tree without the marks of unpacked trees and without the choice of the wide form. -/
def withoutFlags : Expr → Expr
  | literal l _ => literal l false
  | seq items _ => seq (withoutFlagsAll items) false
  | app p args annots _ _ => app p (withoutFlagsAll args) annots false false

/-- Trees without marks and choices of the wide form. -/
def withoutFlagsAll : List Expr → List Expr
  | [] => []
  | e :: rest => withoutFlags e :: withoutFlagsAll rest

end

lemma withoutFlagsAll_eq_map (es : List Expr) : withoutFlagsAll es = es.map withoutFlags := by
  induction es with
  | nil => rfl
  | cons e es ih => rw [withoutFlagsAll, ih, List.map_cons]

lemma withoutAnnotsAll_eq_map (es : List Expr) : withoutAnnotsAll es = es.map withoutAnnots := by
  induction es with
  | nil => rfl
  | cons e es ih => rw [withoutAnnotsAll, ih, List.map_cons]

/-- What a function of trees does to a comparison of all parts is what it does to each of them. -/
lemma compareAll_map_map {f : Expr → Expr}
    (h : ∀ e ∈ es, ∀ e', compare annotated (f e) (f e') = compare annotated' e e')
    (es' : List Expr) :
    compareAll annotated (es.map f) (es'.map f) = compareAll annotated' es es' := by
  induction es generalizing es' with
  | nil => cases es' <;> rfl
  | cons e es ih =>
    obtain ⟨he, hes⟩ := List.forall_mem_cons.1 h
    cases es' with
    | nil => rfl
    | cons e' es' => rw [List.map_cons, List.map_cons, compareAll, compareAll, he, ih hes]

/-- Comparing trees does not look at flags. -/
lemma compare_withoutFlags (annotated : Bool) (a b : Expr) :
    compare annotated a.withoutFlags b.withoutFlags = compare annotated a b := by
  induction a using Expr.induct generalizing b with
  | literal l u => cases b <;> simp [withoutFlags, compare]
  | seq items u ih =>
    cases b <;> simp [withoutFlags, compare, withoutFlagsAll_eq_map, compareAll_map_map ih]
  | app p args annots w u ih =>
    cases b <;> simp [withoutFlags, compare, withoutFlagsAll_eq_map, compareAll_map_map ih]

/-- Without annotations there are none to look at. -/
lemma compare_withoutAnnots (annotated : Bool) (a b : Expr) :
    compare annotated a.withoutAnnots b.withoutAnnots = compare false a b := by
  induction a using Expr.induct generalizing b with
  | literal l u => cases b <;> simp [withoutAnnots, compare]
  | seq items u ih =>
    cases b <;> simp [withoutAnnots, compare, withoutAnnotsAll_eq_map, compareAll_map_map ih]
  | app p args annots w u ih =>
    cases b <;> simp [withoutAnnots, compare, withoutAnnotsAll_eq_map, compareAll_map_map ih]

/-- Two trees have the same shape when they are the same without their annotations. -/
theorem sameShape_iff_same : sameShape a b ↔ same a.withoutAnnots b.withoutAnnots := by
  rw [sameShape, same, compare_withoutAnnots]

lemma canonical_withoutAnnots (e : Expr) :
    e.withoutAnnots.canonical = e.canonical.withoutAnnots := by
  have hall : ∀ es : List Expr, (∀ e ∈ es, e.withoutAnnots.canonical = e.canonical.withoutAnnots) →
      (es.map withoutAnnots).map canonical = (es.map canonical).map withoutAnnots := by
    intro es h
    rw [List.map_map, List.map_map]
    exact List.map_congr_left h
  induction e using Expr.induct with
  | literal l u => rfl
  | seq items u ih =>
    simp only [withoutAnnots, canonical, withoutAnnotsAll_eq_map, canonicalAll_eq_map,
      hall items ih]
  | app p args annots w u ih =>
    simp only [withoutAnnots, canonical, withoutAnnotsAll_eq_map, canonicalAll_eq_map, hall args ih,
      List.length_map]

/-- Trees that are the same have the same shape. -/
theorem sameShape_of_same (h : same a b) : sameShape a b := by
  have hcanonical := same_iff_canonical_eq.1 h
  rw [sameShape_iff_same, same_iff_canonical_eq, canonical_withoutAnnots, canonical_withoutAnnots,
    hcanonical]

/-! ### Parts of trees of one shape -/

lemma compareAll_iff_forall₂ : compareAll false es es' ↔ List.Forall₂ (sameShape · ·) es es' := by
  induction es generalizing es' with
  | nil => cases es' <;> simp [compareAll]
  | cons e es ih => cases es' <;> simp [compareAll, ih, sameShape]

lemma sameShape_seq_iff {u u' : Bool} :
    sameShape (seq es u) (seq es' u') ↔ List.Forall₂ (sameShape · ·) es es' := by
  rw [sameShape, compare, compareAll_iff_forall₂]

/-- Applications of one shape have one primitive, and parts of one shape. -/
lemma sameShape_app_iff {q : Primitive} {annots annots' : List String} {w u w' u' : Bool} :
    sameShape (app p es annots w u) (app q es' annots' w' u') ↔
      p = q ∧ List.Forall₂ (sameShape · ·) es es' := by
  simp [sameShape, compare, compareAll_iff_forall₂]

/-! ### Both comparisons -/

lemma equivalence_same : Equivalence fun a b => same a b = true where
  refl _ := same_iff_toJson.2 rfl
  symm h := same_iff_toJson.2 (same_iff_toJson.1 h).symm
  trans h h' := same_iff_toJson.2 ((same_iff_toJson.1 h).trans (same_iff_toJson.1 h'))

lemma equivalence_sameShape : Equivalence fun a b => sameShape a b = true where
  refl _ := sameShape_iff_same.2 (equivalence_same.refl _)
  symm h := sameShape_iff_same.2 (equivalence_same.symm (sameShape_iff_same.1 h))
  trans h h' := sameShape_iff_same.2
    (equivalence_same.trans (sameShape_iff_same.1 h) (sameShape_iff_same.1 h'))

/-- Two trees are the same exactly when their JSON forms are equal, and have the same shape exactly
when they are the same after their annotations are removed.  Both are equivalences, trees that are
the same have the same shape, and neither comparison looks at the marks of unpacked trees or at the
choice of the wide form. -/
theorem same_and_sameShape_by_json :
    (∀ a b, same a b ↔ a.toJson = b.toJson) ∧
      (∀ a b, sameShape a b ↔ same a.withoutAnnots b.withoutAnnots) ∧
      (Equivalence fun a b => same a b = true) ∧
      (Equivalence fun a b => sameShape a b = true) ∧
      (∀ a b, same a b → sameShape a b) ∧
      ∀ a b, same a.withoutFlags b.withoutFlags = same a b ∧
        sameShape a.withoutFlags b.withoutFlags = sameShape a b :=
  ⟨fun _ _ => same_iff_toJson, fun _ _ => sameShape_iff_same, equivalence_same,
    equivalence_sameShape, fun _ _ => sameShape_of_same,
    fun a b => ⟨compare_withoutFlags true a b, compare_withoutFlags false a b⟩⟩

/-- A pair in the wide form with a part that was unpacked, the same pair without these flags, and
one with another annotation: the first two have one JSON form, and all three have one shape. -/
theorem same_and_sameShape_by_json_flags :
    let flagged := app (.data .pair) [int (-1), seq [bytes [0, 255]] true] ["%x"] true true
    let plain := app (.data .pair) [int (-1), list [bytes [0, 255]]] ["%x"] false false
    let other := app (.data .pair) [int (-1), list [bytes [0, 255]]] ["%y"] false false
    flagged.withoutFlags = plain ∧ same flagged plain ∧ flagged.toJson = plain.toJson ∧
      sameShape flagged plain ∧ ¬ same flagged other ∧ flagged.toJson ≠ other.toJson ∧
      sameShape flagged other := by
  intro flagged plain other
  obtain ⟨hjson, hshape, -, hequiv, himp, -⟩ := same_and_sameShape_by_json
  have hsame : same flagged plain := by rfl
  have hne : ¬ same flagged other := by decide +kernel
  have hother : sameShape plain other := (hshape plain other).2 (by rfl)
  exact ⟨by rfl, hsame, (hjson flagged plain).1 hsame, himp flagged plain hsame, hne,
    fun heq => hne ((hjson flagged other).2 heq), hequiv.trans (himp flagged plain hsame) hother⟩

end Michelson.Expr
