/-
# Leaves and spines of combs

A node that is no pair keeps its primitive, its annotations and the number of its arguments when
pairs are nested, and so does a pair of at most two parts; a longer pair becomes a pair of its first
part and the comb of the others.  Splicing a comb gives the leaves of its parts, so the leaves of a
nested tree are the nested leaves of the tree (`pairLeaves_nestPairs`).  The right spine of a pair of
two parts is the first part and the spine that goes on in the second (`combParts_pair`).
-/
import Mathlib.Tactic
import Michelson.Expr.Comb

namespace Michelson.Expr

variable {p : Primitive} {args : List Expr} {annots : List String} {w u : Bool}

/-! ### The node at the root -/

lemma nestPairsAll_eq_map (es : List Expr) : nestPairsAll es = es.map nestPairs := by
  induction es with
  | nil => rfl
  | cons e es ih => rw [nestPairsAll, ih, List.map_cons]

lemma nestPairs_seq (items : List Expr) (u : Bool) :
    (seq items u).nestPairs = seq (items.map nestPairs) u := by
  rw [nestPairs, nestPairsAll_eq_map]

lemma nestPairs_app_of_not_isPair (h : p.isPair = false) :
    (app p args annots w u).nestPairs = app p (args.map nestPairs) annots w u := by
  rw [nestPairs, nestPairsAll_eq_map]
  split
  · next heq => rw [h, heq]; rfl
  · rfl

lemma nestPairs_app_of_length_le (h : args.length ≤ 2) :
    (app p args annots w u).nestPairs = app p (args.map nestPairs) annots w u := by
  rw [nestPairs, nestPairsAll_eq_map]
  split
  · next heq =>
    have hlength := congrArg List.length heq
    simp only [List.length_map, List.length_cons] at hlength
    omega
  · rfl

lemma nestPairs_pair_cons (h : p.isPair) (e e' e'' : Expr) (rest : List Expr) :
    (app p (e :: e' :: e'' :: rest) annots w u).nestPairs =
      app p [e.nestPairs, comb p ((e' :: e'' :: rest).map nestPairs)] annots false u := by
  rw [nestPairs, nestPairsAll_eq_map]
  exact if_pos h

lemma exists_nestPairs_app (p : Primitive) (args : List Expr) (annots : List String) (w u : Bool) :
    ∃ args' w', (app p args annots w u).nestPairs = app p args' annots w' u := by
  rw [nestPairs]
  split
  · split <;> exact ⟨_, _, rfl⟩
  · exact ⟨_, _, rfl⟩

@[simp] lemma annots_nestPairs (e : Expr) : e.nestPairs.annots = e.annots := by
  cases e with
  | literal l u => rfl
  | seq items u => rw [nestPairs_seq]; rfl
  | app p args annots w u =>
    obtain ⟨args', w', h⟩ := exists_nestPairs_app p args annots w u
    rw [h]
    rfl

@[simp] lemma label?_nestPairs (e : Expr) : e.nestPairs.label? = e.label? := by
  simp only [label?, fieldName?, variableName?, typeName?, nameMarked?, annots_nestPairs]

@[simp] lemma isPair_nestPairs (e : Expr) : e.nestPairs.isPair = e.isPair := by
  cases e with
  | literal l u => rfl
  | seq items u => rw [nestPairs_seq]; rfl
  | app p args annots w u =>
    obtain ⟨args', w', h⟩ := exists_nestPairs_app p args annots w u
    rw [h]
    rfl

/-! ### The trees that are nested to a given root -/

lemma eq_literal_of_nestPairs {e : Expr} {l : Literal} (h : e.nestPairs = literal l u) :
    e = literal l u := by
  cases e with
  | literal l' u' => exact h
  | seq items u' =>
    rw [nestPairs_seq] at h
    cases h
  | app p args annots w u' =>
    obtain ⟨args', w', h'⟩ := exists_nestPairs_app p args annots w u'
    rw [h'] at h
    cases h

lemma eq_seq_of_nestPairs {e : Expr} {items' : List Expr} (h : e.nestPairs = seq items' u) :
    ∃ items, e = seq items u ∧ items.map nestPairs = items' := by
  cases e with
  | literal l u' => cases h
  | seq items u' =>
    rw [nestPairs_seq, seq.injEq] at h
    obtain ⟨hitems, rfl⟩ := h
    exact ⟨items, rfl, hitems⟩
  | app p args annots w u' =>
    obtain ⟨args', w', h'⟩ := exists_nestPairs_app p args annots w u'
    rw [h'] at h
    cases h

lemma eq_app_of_nestPairs {e : Expr} {args' : List Expr} (hp : p.isPair = false)
    (h : e.nestPairs = app p args' annots w u) :
    ∃ args, e = app p args annots w u ∧ args.map nestPairs = args' := by
  cases e with
  | literal l u' => cases h
  | seq items u' =>
    rw [nestPairs_seq] at h
    cases h
  | app q args annots' w' u' =>
    obtain ⟨args'', w'', h'⟩ := exists_nestPairs_app q args annots' w' u'
    have hprim : q = p := by
      rw [h', app.injEq] at h
      exact h.1
    subst hprim
    rw [nestPairs_app_of_not_isPair hp, app.injEq] at h
    obtain ⟨-, hargs, rfl, rfl, rfl⟩ := h
    exact ⟨args, rfl, hargs⟩

lemma eq_app_cons_of_nestPairs {e a' : Expr} {more' : List Expr} (hp : p.isPair = false)
    (h : e.nestPairs = app p (a' :: more') annots w u) :
    ∃ a more, e = app p (a :: more) annots w u ∧ a.nestPairs = a' ∧ more.map nestPairs = more' := by
  obtain ⟨args, rfl, hargs⟩ := eq_app_of_nestPairs hp h
  obtain ⟨a, more, rfl, ha, hmore⟩ := List.map_eq_cons_iff.1 hargs
  exact ⟨a, more, rfl, ha, hmore⟩

/-! ### Leaves -/

lemma pairLeavesAll_eq_flatMap (es : List Expr) : pairLeavesAll es = es.flatMap pairLeaves := by
  induction es with
  | nil => rfl
  | cons e es ih => rw [pairLeavesAll, ih, List.flatMap_cons]

lemma pairLeaves_of_not_isPair {e : Expr} (h : e.isPair = false) : e.pairLeaves = [e] := by
  cases e with
  | literal l u => rfl
  | seq items u => rfl
  | app p args annots w u =>
    have hp : p.isPair = false := h
    rw [pairLeaves, hp]
    rfl

lemma pairLeaves_pair (h : p.isPair) :
    (app p args annots w u).pairLeaves = args.flatMap pairLeaves := by
  rw [pairLeaves, if_pos h, pairLeavesAll_eq_flatMap]

lemma comb_cons (p : Primitive) (e : Expr) {es : List Expr} (hne : es ≠ []) :
    comb p (e :: es) = app p [e, comb p es] [] false false := by
  rw [comb]
  · rfl
  · exact hne

lemma pairLeaves_comb (h : p.isPair) {es : List Expr} (hne : es ≠ []) :
    (comb p es).pairLeaves = es.flatMap pairLeaves := by
  induction es with
  | nil => exact absurd rfl hne
  | cons e es ih =>
    cases es with
    | nil => rw [comb, List.flatMap_singleton]
    | cons e' es =>
      have hrest : e' :: es ≠ [] := List.cons_ne_nil e' es
      rw [comb_cons p e hrest, pairLeaves_pair h, List.flatMap_cons, List.flatMap_singleton,
        ih hrest]
      rfl

/-- Nesting pairs does not change what a pair is spliced into. -/
theorem pairLeaves_nestPairs (e : Expr) : e.nestPairs.pairLeaves = e.pairLeaves.map nestPairs := by
  induction e using Expr.induct with
  | literal l u => rfl
  | seq items u ih => rw [nestPairs_seq, pairLeaves, pairLeaves, List.map_singleton, nestPairs_seq]
  | app p args annots w u ih =>
    have hargs : (args.map nestPairs).flatMap pairLeaves =
        (args.flatMap pairLeaves).map nestPairs := by
      rw [List.flatMap_map, List.map_flatMap]
      exact List.flatMap_congr ih
    by_cases hp : p.isPair
    · rw [pairLeaves_pair hp, ← hargs]
      match args with
      | [] | [_] | [_, _] => rw [nestPairs_app_of_length_le (by simp), pairLeaves_pair hp]
      | e :: e' :: e'' :: rest =>
        rw [nestPairs_pair_cons hp, pairLeaves_pair hp, List.flatMap_cons, List.flatMap_singleton,
          pairLeaves_comb hp (by simp)]
        rfl
    · have hnot : (app p args annots w u).isPair = false := by simpa [isPair, prim?] using hp
      rw [pairLeaves_of_not_isPair hnot, pairLeaves_of_not_isPair (by rw [isPair_nestPairs, hnot]),
        List.map_singleton]

/-! ### The right spine -/

lemma combParts_ne_nil (e : Expr) : e.combParts ≠ [] := by
  induction e using Expr.induct with
  | literal l u => simp [combParts]
  | seq items u => simp [combParts]
  | app p args annots w u ih =>
    rw [combParts]
    split
    · next h =>
      match args with
      | [] => simp at h
      | [last] =>
        rw [spine]
        split
        · exact ih last (List.mem_singleton_self last)
        · exact List.cons_ne_nil last []
      | e :: e' :: rest => exact List.cons_ne_nil e _
    · exact List.cons_ne_nil _ []

lemma combParts_pair (h : p.isPair) (a b : Expr) :
    (app p [a, b] annots w u).combParts =
      a :: if b.isPair && b.annots.isEmpty then b.combParts else [b] := by
  rw [combParts, h]
  rfl

lemma combParts_of_args_isEmpty {e : Expr} (h : e.args.isEmpty) : e.combParts = [e] := by
  cases e with
  | literal l u => rfl
  | seq items u => rfl
  | app p args annots w u =>
    have hargs : args.isEmpty = true := h
    simp [combParts, hargs]

lemma isPair_of_applies {e : Expr} (h : e.applies (.type .pair)) : e.isPair := by
  have hprim : e.prim? = some (.type .pair) := beq_iff_eq.1 h
  rw [isPair, hprim]
  rfl

lemma label?_eq_none_of_annots {e : Expr} (h : e.annots = []) : e.label? = none := by
  simp [label?, fieldName?, variableName?, typeName?, nameMarked?, h]

end Michelson.Expr
