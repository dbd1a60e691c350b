/-
# Types below types

A tree is *below* another if it is a node of one of its parts, and so smaller in every sense.
Whatever access to a value goes on to has a type below that of the value: what an option or a choice
holds, the fields of pairs, those of nested pairs included, the items of lists, and the keys and
values of maps.  Only a pair without arguments is a part of itself.
-/
import Michelson.Proofs.Expr.Traversal
import Michelson.Proofs.TypedValue.ChoiceFree

namespace Michelson

namespace Expr

/-- A tree that is a node of a part of another. -/
def IsBelow (e whole : Expr) : Prop := ∃ a ∈ whole.args, e ∈ a.nodes

variable {e a n whole : Expr}

lemma isBelow_of_mem_args (h : a ∈ whole.args) : a.IsBelow whole := ⟨a, h, mem_nodes_self a⟩

lemma mem_nodes_iff : n ∈ e.nodes ↔ n = e ∨ n.IsBelow e := by
  rw [nodes_eq_cons, List.mem_cons, List.mem_flatMap]
  rfl

lemma mem_nodes_trans (hn : n ∈ e.nodes) (he : e ∈ whole.nodes) : n ∈ whole.nodes := by
  induction whole using inductArgs with
  | node whole ih =>
    rcases mem_nodes_iff.1 he with rfl | ⟨a, ha, he⟩
    · exact hn
    · exact mem_nodes_of_mem_args ha (ih a ha he)

lemma IsBelow.of_mem_nodes (hn : n ∈ e.nodes) (he : e.IsBelow whole) : n.IsBelow whole := by
  obtain ⟨a, ha, he⟩ := he
  exact ⟨a, ha, mem_nodes_trans hn he⟩

lemma height_le_of_mem_nodes (h : n ∈ e.nodes) : n.height ≤ e.height := by
  induction e using inductArgs with
  | node e ih =>
    rcases mem_nodes_iff.1 h with rfl | ⟨a, ha, hn⟩
    · exact Nat.le_refl _
    · exact (ih a ha hn).trans (height_le_iff.1 (Nat.le_refl _) a ha).le

lemma IsBelow.height_lt (h : e.IsBelow whole) : e.height < whole.height := by
  obtain ⟨a, ha, he⟩ := h
  exact (height_le_of_mem_nodes he).trans_lt (height_le_iff.1 (Nat.le_refl _) a ha)

/-- A tree is not below itself. -/
lemma not_isBelow_self (e : Expr) : ¬ e.IsBelow e := fun h => Nat.lt_irrefl _ h.height_lt

/-- The parts along the spine of a pair with arguments are below it. -/
lemma isBelow_of_mem_combParts (hp : whole.isPair) (hargs : whole.args.isEmpty = false)
    (h : e ∈ whole.combParts) : e.IsBelow whole := by
  cases whole with
  | literal l u => cases hp
  | seq items u => cases hp
  | app p args annots w u =>
    have hspine : (app p args annots w u).combParts = spine args := by
      have hpair : p.isPair = true := hp
      have hne : args.isEmpty = false := hargs
      rw [combParts, hpair, hne]
      rfl
    rw [hspine] at h
    refine forall_mem_spine (P := (·.IsBelow (app p args annots w u))) (fun a ha => ?_) e h
    have hnodes := forall_mem_combParts (P := (· ∈ a.nodes))
      (fun e he _ b hb => mem_nodes_trans (mem_nodes_of_mem_args hb (mem_nodes_self b)) he)
      (mem_nodes_self a)
    exact ⟨isBelow_of_mem_args ha, fun part hpart => ⟨a, ha, hnodes part hpart⟩⟩

/-! ### Pairs with arguments -/

/-- Every pair in a type has arguments. -/
def HasFilledPairs (type : Expr) : Prop :=
  ∀ n ∈ type.nodes, n.applies (.type .pair) → n.args.isEmpty = false

instance (type : Expr) : Decidable type.HasFilledPairs :=
  inferInstanceAs (Decidable (∀ n ∈ type.nodes, n.applies (.type .pair) → n.args.isEmpty = false))

lemma HasFilledPairs.of_isBelow {type e : Expr} (h : type.HasFilledPairs) (he : e.IsBelow type) :
    e.HasFilledPairs :=
  fun n hn => h n (mem_nodes_iff.2 (.inr (he.of_mem_nodes hn)))

lemma HasFilledPairs.args_ne {type : Expr} (h : type.HasFilledPairs)
    (hp : type.applies (.type .pair)) : type.args.isEmpty = false :=
  h type (mem_nodes_self type) hp

lemma HasFilledPairs.isBarePair_eq {type : Expr} (h : type.HasFilledPairs) :
    TypedValue.isBarePair type = false := by
  refine Bool.eq_false_iff.2 fun hbare => ?_
  obtain ⟨hp, hargs⟩ := TypedValue.isBarePair_iff.1 hbare
  rw [h.args_ne hp] at hargs
  cases hargs

end Expr

namespace TypedValue

open Michelson.Expr

variable {v r : TypedValue} {type value : Expr} {fs : List TypedValue} {ps : List Part}

lemma isBelow_of_content {side : Nat} (h : v.content side = .ok r) : r.type.IsBelow v.type := by
  unfold content at h
  split at h
  · next ht _ =>
    cases h
    exact isBelow_of_mem_args (List.mem_of_getElem? ht)
  · cases h

lemma eq_or_isBelow_of_unwrap (h : v.unwrap = .ok r) : r = v ∨ r.type.IsBelow v.type := by
  fun_induction unwrap v with
  | case1 v =>
    cases h
    exact .inl rfl
  | case2 v side _ inner hinner ih =>
    have hbelow := isBelow_of_content hinner
    rcases ih h with rfl | hr
    · exact .inr hbelow
    · exact .inr (hbelow.of_mem_nodes (mem_nodes_iff.2 (.inr hr)))
  | case3 => cases h

lemma isBelow_of_fields (hargs : type.args.isEmpty = false) (h : fields type value = some fs) :
    ∀ f ∈ fs, f.type.IsBelow type := by
  fun_induction fields type value generalizing fs with
  | case1 type value hp ih =>
    obtain ⟨values, -, h⟩ := Option.bind_eq_some_iff.1 h
    obtain ⟨inner, hinner, h⟩ := Option.bind_eq_some_iff.1 h
    cases h
    intro f hf
    obtain ⟨front, hfront, hf⟩ := List.mem_flatten.1 hf
    obtain ⟨⟨⟨part, hpart⟩, x⟩, -, hx⟩ := exists_of_mem_mapM hinner hfront
    have hbelow := isBelow_of_mem_combParts hp.1 hp.2 hpart
    simp only at hx
    split at hx
    · next hmerged =>
      have hf := ih part hpart x (args_ne_of_isMerged hmerged hx) hx f hf
      exact hbelow.of_mem_nodes (mem_nodes_iff.2 (.inr hf))
    · cases hx
      rwa [List.mem_singleton.1 hf]
  | case2 type value hp hpair => exact absurd ⟨(Bool.and_eq_true_iff.1 hpair).1, hargs⟩ hp
  | case3 => cases h

/-- The types of the parts of a value and of their keys are below its type, unless this is a pair
without arguments. -/
theorem isBelow_of_parts (hbare : isBarePair v.type = false) (h : v.parts = .ok ps) {p : Part}
    (hp : p ∈ ps) {c : TypedValue} (hc : c ∈ p.values) : c.type.IsBelow v.type := by
  cases divides_of_parts h with
  | pair hv hfs =>
    have hargs : v.type.args.isEmpty = false := by
      simpa [isBarePair, applies, prim?, hv] using hbare
    exact isBelow_of_fields hargs hfs c (mem_values_nameFields hp hc)
  | items hv _ _ =>
    rw [hv]
    obtain ⟨i, hi, rfl⟩ := List.mem_mapIdx.1 hp
    rw [List.mem_singleton.1 hc]
    exact isBelow_of_mem_args List.mem_cons_self
  | entries hv _ _ =>
    rw [hv]
    obtain ⟨e, -, rfl⟩ := List.mem_map.1 hp
    unfold entry at hc
    split at hc
    · rcases List.mem_pair.1 hc with rfl | rfl
      · exact isBelow_of_mem_args List.mem_cons_self
      · exact isBelow_of_mem_args (List.mem_cons_of_mem _ List.mem_cons_self)
    · cases hc
  | none => cases hp

lemma isBelow_of_children {cs : List (String × TypedValue)} (hbare : isBarePair v.type = false)
    (h : v.children = .ok cs) : ∀ c ∈ cs, c.2.type.IsBelow v.type := by
  obtain ⟨ps, hps, hcs⟩ := exists_of_children h
  intro c hc
  have hmem : c.2 ∈ ps.filterMap Part.child? := hcs ▸ List.mem_map_of_mem hc
  obtain ⟨p, hp, hchild⟩ := List.mem_filterMap.1 hmem
  exact isBelow_of_parts hbare hps hp (Part.mem_values_of_child? hchild)

lemma isBelow_of_step {r : TypedValue} {whole name : String} (hbare : isBarePair v.type = false)
    (h : v.step whole name = .ok r) : r.type.IsBelow v.type := by
  rw [TypedValue.step] at h
  split at h
  · cases h
  · next cs hcs =>
    split at h
    · cases h
    · next c hc =>
      obtain ⟨i, -, hi⟩ := Option.bind_eq_some_iff.1 hc
      have hbelow := isBelow_of_children hbare hcs _ (List.mem_of_getElem? hi)
      cases hr : c.unwrap with
      | error fault =>
        rw [hr] at h
        cases h
      | ok r' =>
        rw [hr] at h
        cases h
        rcases eq_or_isBelow_of_unwrap hr with rfl | hr
        · exact hbelow
        · exact hbelow.of_mem_nodes (mem_nodes_iff.2 (.inr hr))

end TypedValue

end Michelson
