/-
# Contracts with a token interface

An interface asks for entrypoints of certain names, and none of these names is ever given to an
entrypoint whose field does not have it (`isNeverGiven_of_mem_required`).  So a contract has an
interface exactly when the first position of each of the names has the wanted type, apart from
annotations and the layout of pairs.

What does not change the first positions, up to annotations and layout, does not change the
interfaces of a contract (`isIn_of_positionsAgree`).  Nesting pairs keeps all positions, and so does
any other tree of the same shape.

The main statement is `isIn_ofType_iff`.
-/
import Michelson.Proofs.Entrypoint.FirstNamed
import Michelson.Proofs.Expr.Equality
import Michelson.Proofs.Expr.NestedPairs
import Michelson.TokenInterface

namespace Michelson

namespace Expr

variable {a b : Expr} {es es' : List Expr} {p : Primitive}

/-! ### Shapes and the layout of pairs -/

lemma sameShape_comb (h : List.Forall₂ (sameShape · ·) es es') :
    sameShape (comb p es) (comb p es') := by
  induction h with
  | nil => exact equivalence_sameShape.refl _
  | @cons e e' es es' he hes ih =>
    cases hes with
    | nil => exact he
    | cons =>
      rw [comb_cons p e (by simp), comb_cons p e' (by simp), sameShape_app_iff]
      exact ⟨rfl, .cons he (.cons ih .nil)⟩

lemma forall₂_map_nestPairs
    (h : ∀ e ∈ es, ∀ e', sameShape e e' → sameShape e.nestPairs e'.nestPairs)
    (hall : List.Forall₂ (sameShape · ·) es es') :
    List.Forall₂ (sameShape · ·) (es.map nestPairs) (es'.map nestPairs) := by
  induction hall with
  | nil => exact .nil
  | cons he _ ih =>
    obtain ⟨hhead, htail⟩ := List.forall_mem_cons.1 h
    exact .cons (hhead _ he) (ih htail)

/-- Trees of one shape have one shape when their pairs are nested. -/
lemma sameShape_nestPairs (h : sameShape a b) : sameShape a.nestPairs b.nestPairs := by
  induction a using Expr.induct generalizing b with
  | literal l u =>
    cases b with
    | literal l' u' => exact h
    | _ => cases h
  | seq items u ih =>
    cases b with
    | seq items' u' =>
      rw [nestPairs_seq, nestPairs_seq, sameShape_seq_iff]
      exact forall₂_map_nestPairs (fun e he e' => ih e he) (sameShape_seq_iff.1 h)
    | _ => cases h
  | app p args annots w u ih =>
    cases b with
    | app q args' annots' w' u' =>
      obtain ⟨rfl, hargs⟩ := sameShape_app_iff.1 h
      have hparts := forall₂_map_nestPairs (fun e he e' => ih e he) hargs
      by_cases hflat : p.isPair → args.length ≤ 2
      · rw [nestPairs_app_of_not_flat hflat, nestPairs_app_of_not_flat (hargs.length_eq ▸ hflat)]
        exact sameShape_app_iff.2 ⟨rfl, hparts⟩
      · -- both are flat pairs, which keep their first part
        obtain ⟨hp, hlength⟩ := Classical.not_imp.1 hflat
        obtain ⟨a, b, c, rest, rfl⟩ := exists_parts_of_not_le_two hlength
        obtain ⟨a', b', c', rest', rfl⟩ := exists_parts_of_not_le_two (hargs.length_eq ▸ hlength)
        obtain ⟨hhead, htail⟩ := List.forall₂_cons.1 hparts
        rw [nestPairs_pair_cons hp, nestPairs_pair_cons hp]
        exact sameShape_app_iff.2 ⟨rfl, .cons hhead (.cons (sameShape_comb htail) .nil)⟩
    | _ => cases h

/-! ### Positions in related trees -/

variable {parameter other type : Expr} {sides : List Branch}

lemma ChoicePosition.nestPairs (h : parameter.ChoicePosition sides type) :
    parameter.nestPairs.ChoicePosition sides type.nestPairs := by
  induction h with
  | root => exact .root
  | left _ ih =>
    rw [nestPairs_app_two] at ih
    exact .left ih
  | right _ ih =>
    rw [nestPairs_app_two] at ih
    exact .right ih

/-- A choice is no pair, so nesting pairs neither makes one nor moves its alternatives. -/
lemma exists_choice_of_nestPairs {e l r : Expr} {annots : List String} {w u : Bool}
    (h : app (.type .or) [l, r] annots w u = e.nestPairs) :
    ∃ l' r', e = app (.type .or) [l', r'] annots w u ∧ l'.nestPairs = l ∧ r'.nestPairs = r := by
  obtain ⟨args, rfl, hargs⟩ := eq_app_of_nestPairs rfl h.symm
  obtain ⟨l', rest, rfl, hl, hrest⟩ := List.map_eq_cons_iff.1 hargs
  obtain ⟨r', rfl, hr⟩ := List.map_eq_singleton_iff.1 hrest
  exact ⟨l', r', rfl, hl, hr⟩

lemma ChoicePosition.exists_of_nestPairs (h : parameter.nestPairs.ChoicePosition sides type) :
    ∃ type', parameter.ChoicePosition sides type' ∧ type = type'.nestPairs := by
  induction h with
  | root => exact ⟨parameter, .root, rfl⟩
  | left _ ih =>
    obtain ⟨choice, hpos, heq⟩ := ih
    obtain ⟨l', r', rfl, rfl, -⟩ := exists_choice_of_nestPairs heq
    exact ⟨l', .left hpos, rfl⟩
  | right _ ih =>
    obtain ⟨choice, hpos, heq⟩ := ih
    obtain ⟨l', r', rfl, -, rfl⟩ := exists_choice_of_nestPairs heq
    exact ⟨r', .right hpos, rfl⟩

/-- A tree of the same shape as a choice is a choice. -/
lemma exists_choice_of_sameShape {e l r : Expr} {annots : List String} {w u : Bool}
    (h : sameShape (app (.type .or) [l, r] annots w u) e) :
    ∃ l' r' annots' w' u', e = app (.type .or) [l', r'] annots' w' u' ∧ sameShape l l' ∧
      sameShape r r' := by
  cases e with
  | app q args annots' w' u' =>
    obtain ⟨rfl, hargs⟩ := sameShape_app_iff.1 h
    match args, hargs with
    | [l', r'], .cons hl (.cons hr .nil) => exact ⟨l', r', annots', w', u', rfl, hl, hr⟩
  | _ => cases h

/-- Trees of one shape have the same positions, with types of one shape. -/
lemma ChoicePosition.exists_of_sameShape (h : parameter.ChoicePosition sides type)
    (hshape : sameShape parameter other) :
    ∃ type', other.ChoicePosition sides type' ∧ sameShape type type' := by
  induction h with
  | root => exact ⟨other, .root, hshape⟩
  | left _ ih =>
    obtain ⟨choice, hpos, heq⟩ := ih
    obtain ⟨l', r', annots, w, u, rfl, hl, -⟩ := exists_choice_of_sameShape heq
    exact ⟨l', .left hpos, hl⟩
  | right _ ih =>
    obtain ⟨choice, hpos, heq⟩ := ih
    obtain ⟨l', r', annots, w, u, rfl, -, hr⟩ := exists_choice_of_sameShape heq
    exact ⟨r', .right hpos, hr⟩

end Expr

namespace TokenInterface

open Entrypoint Michelson.Expr

variable {i : TokenInterface} {parameter other type : Expr} {name : String} {sides : List Branch}

/-! ### First positions -/

/-- No entrypoint of an interface has a name that is ever given to a field without it. -/
lemma isNeverGiven_of_mem_required {p : String × Expr} (h : p ∈ i.required) :
    IsNeverGiven p.1 := by
  have hnames : ∀ p ∈ i.required,
      p.1 ≠ defaultEntrypoint ∧ p.1.toList.getLast?.all fun c => !c.isDigit := by
    cases i <;> decide
  exact isNeverGiven_of_last (hnames p h).1 (hnames p h).2

/-- A contract has an interface when the first position of every name in it has the wanted type. -/
theorem isIn_iff : i.isIn (ofType parameter) ↔ ∀ p ∈ i.required, ∃ sides type,
    FirstNamed parameter p.1 sides type ∧ sameShape type.nestPairs p.2.nestPairs := by
  rw [isIn, List.all_eq_true]
  refine forall₂_congr fun ⟨name, wanted⟩ hp => ?_
  have hfound : ∀ sides type, (∃ entry, find? name (ofType parameter) = some entry ∧
      entry.branch = sides ∧ entry.type = type) ↔ FirstNamed parameter name sides type :=
    fun _ _ => find?_eq_some_iff_firstNamed (isNeverGiven_of_mem_required hp)
  dsimp only
  constructor
  · intro h
    cases hfind : find? name (ofType parameter) with
    | none => simp [hfind] at h
    | some entry =>
      rw [hfind] at h
      exact ⟨_, _, (hfound _ _).1 ⟨entry, hfind, rfl, rfl⟩, h⟩
  · rintro ⟨sides, type, hfirst, hshape⟩
    obtain ⟨entry, hfind, -, rfl⟩ := (hfound sides type).2 hfirst
    rw [hfind]
    exact hshape

/-- Every position in the one type is one in the other, with the same field name and a type that is
the same up to annotations and layout. -/
def PositionsAgree (parameter other : Expr) : Prop :=
  ∀ sides type, parameter.ChoicePosition sides type → ∃ type', other.ChoicePosition sides type' ∧
    type'.fieldName? = type.fieldName? ∧ sameShape type.nestPairs type'.nestPairs

lemma exists_firstNamed_of_positionsAgree (h : PositionsAgree parameter other)
    (hback : PositionsAgree other parameter) (hfirst : FirstNamed parameter name sides type) :
    ∃ type', FirstNamed other name sides type' ∧ sameShape type.nestPairs type'.nestPairs := by
  obtain ⟨type', hpos, hfield, hshape⟩ := h sides type hfirst.position
  refine ⟨type', ⟨hpos, hfield.trans hfirst.named, fun sides' t hpos' hnamed => ?_⟩, hshape⟩
  obtain ⟨t', hpos'', hfield', -⟩ := hback sides' t hpos'
  exact hfirst.first sides' t' hpos'' (hfield'.trans hnamed)

lemma isIn_of_positionsAgree (h : PositionsAgree parameter other)
    (hback : PositionsAgree other parameter) (hin : i.isIn (ofType parameter)) :
    i.isIn (ofType other) := by
  refine isIn_iff.2 fun p hp => ?_
  obtain ⟨sides, type, hfirst, hwanted⟩ := isIn_iff.1 hin p hp
  obtain ⟨type', hfirst', hshape⟩ := exists_firstNamed_of_positionsAgree h hback hfirst
  exact ⟨sides, type', hfirst',
    equivalence_sameShape.trans (equivalence_sameShape.symm hshape) hwanted⟩

/-- What keeps the positions up to annotations and layout keeps the interfaces. -/
theorem isIn_eq_of_positionsAgree (h : PositionsAgree parameter other)
    (hback : PositionsAgree other parameter) :
    i.isIn (ofType other) = i.isIn (ofType parameter) :=
  Bool.eq_iff_iff.2 ⟨isIn_of_positionsAgree hback h, isIn_of_positionsAgree h hback⟩

lemma fieldName?_nestPairs (e : Expr) : e.nestPairs.fieldName? = e.fieldName? := by
  simp [fieldName?, nameMarked?]

lemma positionsAgree_nestPairs (parameter : Expr) :
    PositionsAgree parameter parameter.nestPairs := by
  intro sides type hpos
  refine ⟨type.nestPairs, hpos.nestPairs, fieldName?_nestPairs type, ?_⟩
  rw [nestPairs_nestPairs]
  exact equivalence_sameShape.refl _

lemma nestPairs_positionsAgree (parameter : Expr) :
    PositionsAgree parameter.nestPairs parameter := by
  intro sides type hpos
  obtain ⟨type', hpos', rfl⟩ := hpos.exists_of_nestPairs
  refine ⟨type', hpos', (fieldName?_nestPairs type').symm, ?_⟩
  rw [nestPairs_nestPairs]
  exact equivalence_sameShape.refl _

lemma positionsAgree_of_sameShape (hshape : sameShape parameter other)
    (hfields : ∀ sides type type', parameter.ChoicePosition sides type →
      other.ChoicePosition sides type' → type.fieldName? = type'.fieldName?) :
    PositionsAgree parameter other := by
  intro sides type hpos
  obtain ⟨type', hpos', hshape'⟩ := hpos.exists_of_sameShape hshape
  exact ⟨type', hpos', (hfields sides type type' hpos hpos').symm, sameShape_nestPairs hshape'⟩

/-- A contract has an interface exactly when, for every name and type in it, some position of the
parameter type has the name as field name and the first such position has a type that is the wanted
one up to annotations and the layout of pairs.  So nesting the pairs of the parameter type does not
change the answer.  Nor do other annotations, as long as they give every position its field name, or
another tree of choices that has the same types first under the names that the interface asks
for. -/
theorem isIn_ofType_iff (i : TokenInterface) (parameter : Expr) :
    (i.isIn (ofType parameter) ↔ ∀ p ∈ i.required, ∃ sides type,
      FirstNamed parameter p.1 sides type ∧ sameShape type.nestPairs p.2.nestPairs) ∧
      i.isIn (ofType parameter.nestPairs) = i.isIn (ofType parameter) ∧
      (∀ other, sameShape parameter other →
        (∀ sides type type', parameter.ChoicePosition sides type →
          other.ChoicePosition sides type' → type.fieldName? = type'.fieldName?) →
        i.isIn (ofType other) = i.isIn (ofType parameter)) ∧
      ∀ other, (∀ p ∈ i.required, ∀ type, (∃ sides, FirstNamed parameter p.1 sides type) ↔
          ∃ sides, FirstNamed other p.1 sides type) →
        i.isIn (ofType other) = i.isIn (ofType parameter) := by
  refine ⟨isIn_iff, ?_, fun other hshape hfields => ?_, fun other hfirst => ?_⟩
  · exact isIn_eq_of_positionsAgree (positionsAgree_nestPairs parameter)
      (nestPairs_positionsAgree parameter)
  · exact isIn_eq_of_positionsAgree (positionsAgree_of_sameShape hshape hfields)
      (positionsAgree_of_sameShape (equivalence_sameShape.symm hshape)
        fun sides type type' hpos hpos' => (hfields sides type' type hpos' hpos).symm)
  · rw [Bool.eq_iff_iff, isIn_iff, isIn_iff]
    refine forall₂_congr fun p hp => ?_
    rw [exists_comm, exists_comm (α := List Branch)]
    refine exists_congr fun type => ?_
    rw [exists_and_right, exists_and_right, hfirst p hp type]

/-- A type with a flat pair as its transfer and a number under the same name behind it: the number
counts for nothing.  The interface is there with the pairs nested, with another annotation inside
the pair, and when the choices are put together in another way without the number. -/
theorem isIn_ofType_iff_duplicate :
    let transfer (inner : List String) : Expr :=
      app (.type .pair) [app (.type .address) [] inner false false, address, nat] ["%transfer"] true
        false
    let balance := app (.type .pair) [address, .type1 .contract nat] ["%getBalance"] false false
    let supply := app (.type .pair) [.type0 .unit, .type1 .contract nat] ["%getTotalSupply"] false
      false
    let number := app (.type .nat) [] ["%transfer"] false false
    let parameter (inner : List String) : Expr :=
      .type2 .or (transfer inner) (.type2 .or balance (.type2 .or supply number))
    let other := .type2 .or (.type2 .or supply balance) (transfer [])
    fa1.isIn (ofType (parameter [])) ∧ fa1.isIn (ofType (parameter []).nestPairs) ∧
      fa1.isIn (ofType (parameter ["%from"])) ∧ fa1.isIn (ofType other) := by
  intro transfer balance supply number parameter other
  obtain ⟨hin, hnested, hannots, hother⟩ := isIn_ofType_iff fa1 (parameter [])
  have hbase : fa1.isIn (ofType (parameter [])) := by
    refine hin.2 (List.forall_mem_cons.2 ⟨?_, List.forall_mem_cons.2 ⟨?_,
      List.forall_mem_singleton.2 ?_⟩⟩)
    · exact ⟨[.left], transfer [], firstNamed_iff.2 rfl, rfl⟩
    · exact ⟨[.right, .left], balance, firstNamed_iff.2 rfl, rfl⟩
    · exact ⟨[.right, .right, .left], supply, firstNamed_iff.2 rfl, rfl⟩
  have hfields : ∀ p ∈ choicePositions [] (parameter []),
      ∀ q ∈ choicePositions [] (parameter ["%from"]), p.1 = q.1 →
        p.2.fieldName? = q.2.fieldName? := by decide
  have hfirst : ∀ p ∈ fa1.required, ((choicePositions [] (parameter [])).find?
      fun q => q.2.fieldName? == some p.1).map Prod.snd = ((choicePositions [] other).find?
      fun q => q.2.fieldName? == some p.1).map Prod.snd :=
    List.forall_mem_cons.2 ⟨rfl, List.forall_mem_cons.2 ⟨rfl, List.forall_mem_singleton.2 rfl⟩⟩
  refine ⟨hbase, hnested.trans hbase, (hannots _ rfl fun sides type type' hpos hpos' => ?_).trans
    hbase, (hother other fun p hp type => ?_).trans hbase⟩
  · exact hfields (sides, type) (mem_choicePositions_iff.2 hpos) (sides, type')
      (mem_choicePositions_iff.2 hpos') rfl
  · rw [exists_firstNamed_iff, exists_firstNamed_iff, hfirst p hp]

end TokenInterface

end Michelson
