/-
# Nodes and heights

A property of all nodes of a tree is a property of the root and of all nodes of its parts, the
height of a tree is bounded by the heights of its parts, and a node takes other parts of the same
number.  With `Expr.inductArgs` this is all that an induction over trees needs to know about the
three sorts of node.
-/
import Mathlib.Tactic
import Michelson.Expr.Traversal

namespace Michelson.Expr

/-- Induction over a tree by its parts, whatever sort of node holds them. -/
theorem inductArgs {P : Expr → Prop} (node : ∀ e, (∀ a ∈ e.args, P a) → P e) (e : Expr) : P e := by
  induction e using Expr.induct with
  | literal l u => exact node _ fun a ha => absurd ha List.not_mem_nil
  | seq items u ih => exact node _ ih
  | app p args annots w u ih => exact node _ ih

/-! ### Other parts -/

@[simp] lemma withArgs_args (e : Expr) : e.withArgs e.args = e := by
  cases e <;> rfl

@[simp] lemma withArgs_withArgs (e : Expr) (parts parts' : List Expr) :
    (e.withArgs parts).withArgs parts' = e.withArgs parts' := by
  cases e <;> rfl

lemma args_withArgs {e : Expr} {parts : List Expr} (h : e.args.length = parts.length) :
    (e.withArgs parts).args = parts := by
  cases e with
  | literal l u => exact (List.length_eq_zero_iff.1 h.symm).symm
  | seq items u => rfl
  | app p args annots w u => rfl

@[simp] lemma args_withArgs_map (e : Expr) (f : Expr → Expr) :
    (e.withArgs (e.args.map f)).args = e.args.map f :=
  args_withArgs (List.length_map f).symm

lemma args_withArgs_subset (e : Expr) (parts : List Expr) : (e.withArgs parts).args ⊆ parts := by
  cases e <;> simp [withArgs, args]

/-! ### Nodes -/

lemma visitedAll_eq_flatMap (skip : Expr → Bool) (es : List Expr) :
    visitedAll skip es = es.flatMap (visited skip) := by
  induction es with
  | nil => rfl
  | cons e es ih => rw [visitedAll, ih, List.flatMap_cons]

lemma visited_eq_cons (skip : Expr → Bool) (e : Expr) :
    e.visited skip = e :: if skip e then [] else e.args.flatMap (visited skip) := by
  cases e with
  | literal l u => simp [visited, args]
  | seq items u => rw [visited, visitedAll_eq_flatMap, args]
  | app p args annots w u => rw [visited, visitedAll_eq_flatMap, Expr.args]

/-- A walk that skips fewer nodes meets the same nodes and more between them. -/
lemma visited_sublist_of_imp {skip skip' : Expr → Bool} (h : ∀ n, skip' n → skip n) (e : Expr) :
    (e.visited skip).Sublist (e.visited skip') := by
  induction e using inductArgs with
  | node e ih =>
    rw [visited_eq_cons skip, visited_eq_cons skip']
    refine List.Sublist.cons_cons e ?_
    by_cases hskip : skip e
    · rw [if_pos hskip]
      exact List.nil_sublist _
    · rw [if_neg hskip, if_neg fun hskip' => hskip (h e hskip')]
      exact List.Sublist.flatMap_right e.args ih

lemma applies_iff {p : Primitive} {e : Expr} : e.applies p ↔ e.prim? = some p := beq_iff_eq

lemma nodes_eq_cons (e : Expr) : e.nodes = e :: e.args.flatMap nodes := by
  rw [nodes, visited_eq_cons, if_neg Bool.false_ne_true]
  rfl

lemma mem_nodes_self (e : Expr) : e ∈ e.nodes := by
  rw [nodes_eq_cons]
  exact List.mem_cons_self

lemma mem_nodes_of_mem_args {e a n : Expr} (ha : a ∈ e.args) (hn : n ∈ a.nodes) : n ∈ e.nodes := by
  rw [nodes_eq_cons]
  exact List.mem_cons_of_mem e (List.mem_flatMap.2 ⟨a, ha, hn⟩)

lemma forall_mem_nodes {P : Expr → Prop} {e : Expr} :
    (∀ n ∈ e.nodes, P n) ↔ P e ∧ ∀ a ∈ e.args, ∀ n ∈ a.nodes, P n := by
  constructor
  · intro h
    exact ⟨h e (mem_nodes_self e), fun a ha n hn => h n (mem_nodes_of_mem_args ha hn)⟩
  · rintro ⟨he, hargs⟩ n hn
    rw [nodes_eq_cons] at hn
    rcases List.mem_cons.1 hn with rfl | hn
    · exact he
    · obtain ⟨a, ha, hna⟩ := List.mem_flatMap.1 hn
      exact hargs a ha n hna

/-- The nodes that are `depth` levels below the root, left to right. -/
def nodesAt : (depth : Nat) → Expr → List Expr
  | 0, e => [e]
  | depth + 1, e => e.args.flatMap (nodesAt depth)

lemma forall_mem_nodesAt {P : Nat → Expr → Prop} {e : Expr} :
    (∀ depth, ∀ n ∈ e.nodesAt depth, P depth n) ↔
      P 0 e ∧ ∀ a ∈ e.args, ∀ depth, ∀ n ∈ a.nodesAt depth, P (depth + 1) n := by
  constructor
  · intro h
    exact ⟨h 0 e (List.mem_singleton_self e), fun a ha depth n hn =>
      h (depth + 1) n (List.mem_flatMap.2 ⟨a, ha, hn⟩)⟩
  · rintro ⟨he, hargs⟩ (_ | depth) n hn
    · rwa [List.mem_singleton.1 hn]
    · obtain ⟨a, ha, hna⟩ := List.mem_flatMap.1 hn
      exact hargs a ha depth n hna

/-! ### Heights -/

lemma heightAll_le_iff {es : List Expr} {n : Nat} : heightAll es ≤ n ↔ ∀ e ∈ es, e.height < n := by
  induction es with
  | nil => simp [heightAll]
  | cons e es ih => rw [heightAll, Nat.max_le, ih, List.forall_mem_cons, Nat.succ_le_iff]

lemma height_eq (e : Expr) : e.height = heightAll e.args := by
  cases e <;> simp [height, args, heightAll]

lemma height_le_iff {e : Expr} {n : Nat} : e.height ≤ n ↔ ∀ a ∈ e.args, a.height < n := by
  rw [height_eq, heightAll_le_iff]

end Michelson.Expr
