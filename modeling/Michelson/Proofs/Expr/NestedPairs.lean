/-
# Trees without flat pairs

Nesting pairs changes one sort of node: a pair of more than two parts becomes a pair of its first
part and the comb of the others (`nestPairs_cases`).  Every other node stays as it is, with its
parts nested.  This is the only step that looks into `nestPairs`; what is left of a tree and what is
not is read off it by induction on the tree.

The nodes of the combs that are put in have no annotations, so the annotations of a tree stay what
they are, and the right spine of a tree goes through these combs as it went along the parts of the
flat pair (`combParts_comb`).

The main statement is `nestPairs_changes_layout`.
-/
import Michelson.Proofs.Expr.Comb
import Michelson.Proofs.Expr.Traversal

namespace Michelson.Expr

variable {p : Primitive} {annots : List String} {w u : Bool} {e : Expr} {es : List Expr}

/-! ### What nesting does at a node -/

lemma nestPairs_app_of_not_flat {args : List Expr} (h : p.isPair → args.length ≤ 2) :
    (app p args annots w u).nestPairs = app p (args.map nestPairs) annots w u := by
  by_cases hp : p.isPair
  · exact nestPairs_app_of_length_le (h hp)
  · exact nestPairs_app_of_not_isPair (by simpa using hp)

lemma nestPairs_app_two (a b : Expr) :
    (app p [a, b] annots w u).nestPairs = app p [a.nestPairs, b.nestPairs] annots w u :=
  nestPairs_app_of_length_le (by simp)

lemma exists_parts_of_not_le_two (h : ¬ es.length ≤ 2) :
    ∃ a b c rest, es = a :: b :: c :: rest := by
  obtain _ | ⟨a, _ | ⟨b, _ | ⟨c, rest⟩⟩⟩ := es
  case cons.cons.cons => exact ⟨a, b, c, rest, rfl⟩
  all_goals exact absurd (by simp) h

/-- A node stays as it is, with its parts nested, unless it is a pair of more than two parts; then
it keeps its first part and holds the comb of the others. -/
lemma nestPairs_cases (e : Expr) :
    ((e.isPair → e.args.length ≤ 2) ∧ e.nestPairs = e.withArgs (e.args.map nestPairs)) ∨
      ∃ p a b c rest annots w u, p.isPair ∧ e = app p (a :: b :: c :: rest) annots w u ∧
        e.nestPairs =
          app p [a.nestPairs, comb p ((b :: c :: rest).map nestPairs)] annots false u := by
  cases e with
  | literal l u => exact .inl ⟨by simp [args], rfl⟩
  | seq items u => exact .inl ⟨by simp [isPair, prim?], nestPairs_seq items u⟩
  | app p args annots w u =>
    by_cases hflat : p.isPair → args.length ≤ 2
    · exact .inl ⟨hflat, nestPairs_app_of_not_flat hflat⟩
    · obtain ⟨hp, hlength⟩ := Classical.not_imp.1 hflat
      obtain ⟨a, b, c, rest, rfl⟩ := exists_parts_of_not_le_two hlength
      exact .inr ⟨p, a, b, c, rest, annots, w, u, hp, rfl, nestPairs_pair_cons hp a b c rest⟩

/-! ### No flat pair is left -/

/-- No pair in the tree has more than two parts. -/
def IsNested (e : Expr) : Prop := ∀ n ∈ e.nodes, n.isPair → n.args.length ≤ 2

lemma isNested_iff :
    e.IsNested ↔ (e.isPair → e.args.length ≤ 2) ∧ ∀ a ∈ e.args, a.IsNested :=
  forall_mem_nodes

lemma isNested_comb (h : ∀ e ∈ es, e.IsNested) : (comb p es).IsNested := by
  induction es with
  | nil => exact isNested_iff.2 ⟨fun _ => Nat.zero_le 2, fun a ha => absurd ha List.not_mem_nil⟩
  | cons e es ih =>
    obtain ⟨he, hes⟩ := List.forall_mem_cons.1 h
    cases es with
    | nil => exact he
    | cons e' es =>
      rw [comb_cons p e (by simp)]
      exact isNested_iff.2 ⟨fun _ => Nat.le_refl 2, by simpa [args] using ⟨he, ih hes⟩⟩

/-- After nesting no pair has more than two parts. -/
theorem isNested_nestPairs (e : Expr) : e.nestPairs.IsNested := by
  induction e using inductArgs with
  | node e ih =>
    rcases nestPairs_cases e with ⟨hlength, heq⟩ | ⟨p, a, b, c, rest, annots, w, u, hp, rfl, heq⟩
    · have hargs : e.nestPairs.args = e.args.map nestPairs := by rw [heq, args_withArgs_map]
      rw [isNested_iff, isPair_nestPairs, hargs, List.length_map]
      exact ⟨hlength, List.forall_mem_map.2 ih⟩
    · obtain ⟨ha, hrest⟩ := List.forall_mem_cons.1 ih
      have hcomb : (comb p ((b :: c :: rest).map nestPairs)).IsNested :=
        isNested_comb (List.forall_mem_map.2 hrest)
      rw [heq]
      exact isNested_iff.2 ⟨fun _ => Nat.le_refl 2, by simpa [args] using ⟨ha, hcomb⟩⟩

/-- A tree without flat pairs stays as it is. -/
lemma nestPairs_of_isNested (h : e.IsNested) : e.nestPairs = e := by
  induction e using inductArgs with
  | node e ih =>
    obtain ⟨hlength, hargs⟩ := isNested_iff.1 h
    rcases nestPairs_cases e with ⟨-, heq⟩ | ⟨p, a, b, c, rest, annots, w, u, hp, rfl, -⟩
    · have hmap : e.args.map nestPairs = e.args :=
        (List.map_congr_left fun a ha => ih a ha (hargs a ha)).trans (List.map_id e.args)
      rw [heq, hmap, withArgs_args]
    · exact absurd (hlength hp) (by simp [args])

lemma nestPairs_nestPairs (e : Expr) : e.nestPairs.nestPairs = e.nestPairs :=
  nestPairs_of_isNested (isNested_nestPairs e)

/-! ### The right spine -/

lemma combParts_eq (e : Expr) :
    e.combParts = if e.isPair && !e.args.isEmpty then spine e.args else [e] := by
  cases e <;> simp [combParts, isPair, prim?, args]

/-- The right spine of a comb goes along its parts. -/
lemma combParts_comb (hp : p.isPair) (e e' : Expr) (es : List Expr) :
    (comb p (e :: e' :: es)).combParts = spine (e :: e' :: es) := by
  induction es generalizing e e' with
  | nil => rw [comb_cons p e (by simp), combParts_pair hp]; rfl
  | cons e'' es ih =>
    -- the comb of the others is a pair without annotations, so the spine goes on in it
    have hinner :
        (comb p (e' :: e'' :: es)).isPair && (comb p (e' :: e'' :: es)).annots.isEmpty := by
      rw [comb_cons p e' (by simp)]
      simpa [isPair, prim?, Expr.annots] using hp
    rw [comb_cons p e (by simp), combParts_pair hp, if_pos hinner, ih]
    rfl

lemma spine_map_nestPairs (h : ∀ e ∈ es, e.nestPairs.combParts = e.combParts.map nestPairs) :
    spine (es.map nestPairs) = (spine es).map nestPairs := by
  induction es with
  | nil => rfl
  | cons e es ih =>
    obtain ⟨he, hes⟩ := List.forall_mem_cons.1 h
    cases es with
    | nil =>
      rw [List.map_singleton, spine, spine, isPair_nestPairs, annots_nestPairs, he]
      split <;> rfl
    | cons e' es => exact congrArg (e.nestPairs :: ·) (ih hes)

/-- Nesting pairs nests the parts along the right spine and does not change where it ends. -/
theorem combParts_nestPairs (e : Expr) : e.nestPairs.combParts = e.combParts.map nestPairs := by
  induction e using inductArgs with
  | node e ih =>
    rcases nestPairs_cases e with ⟨-, heq⟩ | ⟨p, a, b, c, rest, annots, w, u, hp, rfl, heq⟩
    · have hargs : e.nestPairs.args = e.args.map nestPairs := by rw [heq, args_withArgs_map]
      rw [combParts_eq, combParts_eq e, isPair_nestPairs, hargs, List.isEmpty_map,
        spine_map_nestPairs ih]
      split <;> rfl
    · have hroot : (app p (a :: b :: c :: rest) annots w u).combParts =
          spine (a :: b :: c :: rest) := by
        rw [combParts_eq]
        exact if_pos (by simpa [isPair, prim?, args] using hp)
      -- the nested pair and the comb of all parts differ in the annotations of the root alone
      have hcomb := combParts_comb hp a.nestPairs b.nestPairs ((c :: rest).map nestPairs)
      rw [comb_cons p a.nestPairs (by simp), combParts_pair hp] at hcomb
      rw [heq, combParts_pair hp, hroot]
      exact hcomb.trans (spine_map_nestPairs ih)

/-! ### Annotations -/

/-- The annotations of the nodes that have any, from the root down, left to right. -/
def annotLists (e : Expr) : List (List String) :=
  (e.nodes.map Expr.annots).filter fun annots => !annots.isEmpty

lemma annotLists_eq (e : Expr) :
    e.annotLists = (if e.annots.isEmpty then [] else [e.annots]) ++ e.args.flatMap annotLists := by
  have hargs : (e.args.flatMap fun a => a.nodes.map Expr.annots).filter (fun l => !l.isEmpty) =
      e.args.flatMap annotLists := List.filter_flatMap
  rw [annotLists, nodes_eq_cons, List.map_cons, List.map_flatMap, List.filter_cons, hargs]
  cases e.annots.isEmpty <;> rfl

lemma annotLists_comb (p : Primitive) (es : List Expr) :
    (comb p es).annotLists = es.flatMap annotLists := by
  induction es with
  | nil => rfl
  | cons e es ih =>
    cases es with
    | nil => rw [comb, List.flatMap_singleton]
    | cons e' es =>
      rw [comb_cons p e (by simp), annotLists_eq, List.flatMap_cons (x := e), ← ih]
      simp [Expr.annots, args]

/-- Nesting pairs keeps all annotations in their order. -/
theorem annotLists_nestPairs (e : Expr) : e.nestPairs.annotLists = e.annotLists := by
  induction e using inductArgs with
  | node e ih =>
    have hparts : (e.args.map nestPairs).flatMap annotLists = e.args.flatMap annotLists := by
      rw [List.flatMap_map]
      exact List.flatMap_congr ih
    rcases nestPairs_cases e with ⟨-, heq⟩ | ⟨p, a, b, c, rest, annots, w, u, hp, rfl, heq⟩
    · have hargs : e.nestPairs.args = e.args.map nestPairs := by rw [heq, args_withArgs_map]
      rw [annotLists_eq, annotLists_eq e, annots_nestPairs, hargs, hparts]
    · have hpair :
          (app p [a.nestPairs, comb p ((b :: c :: rest).map nestPairs)] annots false u).args.flatMap
            annotLists = ((a :: b :: c :: rest).map nestPairs).flatMap annotLists := by
        rw [args, List.flatMap_cons, List.flatMap_singleton, annotLists_comb]
        rfl
      rw [annotLists_eq, annots_nestPairs, heq, hpair, annotLists_eq (app p (a :: _) _ _ _)]
      exact congrArg _ hparts

/-! ### Layout and nothing else -/

/-- Nesting pairs changes the layout of a tree and nothing else.  No pair is left with more than two
arguments, and nesting again changes nothing.  What the pairs of the tree are spliced into, and the
parts along its right spine, are those of the tree before, each of them nested.  And the annotations
of the nodes that have any are the same, in the same order. -/
theorem nestPairs_changes_layout (e : Expr) :
    (∀ n ∈ e.nestPairs.nodes, n.isPair → n.args.length ≤ 2) ∧
      e.nestPairs.nestPairs = e.nestPairs ∧
      e.nestPairs.pairLeaves = e.pairLeaves.map nestPairs ∧
      e.nestPairs.combParts = e.combParts.map nestPairs ∧
      e.nestPairs.annotLists = e.annotLists :=
  ⟨isNested_nestPairs e, nestPairs_nestPairs e, pairLeaves_nestPairs e, combParts_nestPairs e,
    annotLists_nestPairs e⟩

/-- A flat pair type of a list, a pair without parts and an annotated flat pair of values, which the
list holds as well: the spine ends at the annotated pair before and after. -/
theorem nestPairs_changes_layout_mixed :
    let flat := app (.data .pair) [int 1, int 2, int 3] ["%in"] true true
    let nested := app (.data .pair) [int 1, data2 .pair (int 2) (int 3)] ["%in"] false true
    let e := app (.type .pair) [list [flat], data0 .pair, flat] ["%out"] true false
    let tree := app (.type .pair) [list [nested], type2 .pair (data0 .pair) nested] ["%out"] false
      false
    e.nestPairs = tree ∧ nested ∈ tree.nodes ∧ nested.isPair ∧ nested.args.length ≤ 2 ∧
      tree.nestPairs = tree ∧
      tree.pairLeaves = [list [nested], int 1, int 2, int 3] ∧
      tree.combParts = [list [nested], data0 .pair, nested] ∧
      tree.annotLists = [["%out"], ["%in"], ["%in"]] := by
  intro flat nested e tree
  obtain ⟨hshort, hagain, hleaves, hspine, hannots⟩ := nestPairs_changes_layout e
  have htree : e.nestPairs = tree := by rfl
  rw [htree] at hshort hagain hleaves hspine hannots
  have hmem : nested ∈ tree.nodes := List.mem_of_getElem? (i := 2) rfl
  exact ⟨htree, hmem, rfl, hshort nested hmem rfl, hagain, hleaves, hspine, hannots⟩

end Michelson.Expr
