/-
# Types without choices

A choice is rendered as an object around what it holds, while a path goes through it without a step.
A type has no choice in it (`isChoiceFree`) if there is none outside the types of the keys of maps;
keys are names and not parts.  Being without choices passes from a type to those of all its parts,
the fields that are found along the spines of pairs included (`isChoiceFree_parts`).
-/
import Michelson.Proofs.TypedValue.Fields

namespace Michelson

namespace Expr

mutual

/-- Whether there is no choice in a type, the types of the keys of maps apart. -/
def isChoiceFree : Expr → Bool
  | literal _ _ => true
  | seq items _ => allChoiceFree items
  | app p args _ _ _ =>
    p != .type .or &&
      if p == .type .map || p == .type .bigMap then restChoiceFree args else allChoiceFree args

/-- Whether there is no choice in some types. -/
def allChoiceFree : List Expr → Bool
  | [] => true
  | e :: rest => isChoiceFree e && allChoiceFree rest

/-- Whether there is no choice in the arguments of a map behind the type of its keys. -/
def restChoiceFree : List Expr → Bool
  | [] => true
  | _ :: rest => allChoiceFree rest

end

variable {p : Primitive} {args : List Expr} {annots : List String} {w u : Bool}

lemma allChoiceFree_iff {es : List Expr} : allChoiceFree es ↔ ∀ e ∈ es, e.isChoiceFree := by
  induction es with
  | nil => simp [allChoiceFree]
  | cons e es ih => rw [allChoiceFree, Bool.and_eq_true, ih, List.forall_mem_cons]

lemma restChoiceFree_eq (es : List Expr) : restChoiceFree es = allChoiceFree es.tail := by
  cases es <;> rfl

lemma prim?_ne_or_of_isChoiceFree {type : Expr} (h : type.isChoiceFree) :
    type.prim? ≠ some (.type .or) := by
  intro hor
  cases type with
  | literal l u => cases hor
  | seq items u => cases hor
  | app p args annots w u =>
    cases hor
    rw [isChoiceFree] at h
    cases h

lemma isChoiceFree_arg (h : (app p args annots w u).isChoiceFree) (hmap : p ≠ .type .map)
    (hbigMap : p ≠ .type .bigMap) {a : Expr} (ha : a ∈ args) : a.isChoiceFree := by
  rw [isChoiceFree, beq_false_of_ne hmap, beq_false_of_ne hbigMap, Bool.and_eq_true] at h
  exact allChoiceFree_iff.1 h.2 a ha

/-- The type of the values of a map. -/
lemma isChoiceFree_value {keyType valueType : Expr}
    (h : (app p [keyType, valueType] annots w u).isChoiceFree)
    (hp : p = .type .map ∨ p = .type .bigMap) : valueType.isChoiceFree := by
  rw [isChoiceFree, Bool.and_eq_true, if_pos (by simpa using hp), restChoiceFree_eq] at h
  exact allChoiceFree_iff.1 h.2 valueType (by simp)

lemma isChoiceFree_arg_of_isPair {type a : Expr} (h : type.isChoiceFree) (hp : type.isPair)
    (ha : a ∈ type.args) : a.isChoiceFree := by
  cases type with
  | literal l u => cases hp
  | seq items u => cases hp
  | app p args annots w u =>
    refine isChoiceFree_arg h ?_ ?_ ha
    · rintro rfl
      cases hp
    · rintro rfl
      cases hp

lemma forall_mem_spine {P : Expr → Prop} {es : List Expr}
    (h : ∀ a ∈ es, P a ∧ ∀ part ∈ a.combParts, P part) : ∀ part ∈ spine es, P part := by
  induction es with
  | nil => simp [spine]
  | cons a es ih =>
    obtain ⟨⟨ha, hparts⟩, hrest⟩ := List.forall_mem_cons.1 h
    cases es with
    | nil =>
      rw [spine]
      split
      · exact hparts
      · exact List.forall_mem_singleton.2 ha
    | cons b es => exact List.forall_mem_cons.2 ⟨ha, ih hrest⟩

/-- What passes from pairs to their arguments holds of the parts along a spine. -/
lemma forall_mem_combParts {P : Expr → Prop} (hP : ∀ e, P e → e.isPair → ∀ a ∈ e.args, P a)
    {e : Expr} (h : P e) : ∀ part ∈ e.combParts, P part := by
  induction e using Expr.induct with
  | literal l u => simpa [combParts] using h
  | seq items u => simpa [combParts] using h
  | app p args annots w u ih =>
    rw [combParts]
    split
    · next hpair =>
      have hargs := hP _ h (Bool.and_eq_true_iff.1 hpair).1
      exact forall_mem_spine fun a ha => ⟨hargs a ha, ih a ha (hargs a ha)⟩
    · exact List.forall_mem_singleton.2 h

end Expr

namespace TypedValue

open Michelson.Expr

lemma isChoiceFree_fields {type value : Expr} {fs : List TypedValue} (h : type.isChoiceFree)
    (hfs : fields type value = some fs) : ∀ f ∈ fs, f.type.isChoiceFree := by
  have hparts : ∀ {type : Expr}, type.isChoiceFree → ∀ part ∈ type.combParts, part.isChoiceFree :=
    fun h => forall_mem_combParts (P := fun e => e.isChoiceFree)
      (fun e he hp a ha => isChoiceFree_arg_of_isPair he hp ha) h
  fun_induction fields type value generalizing fs with
  | case1 type value hp ih =>
    obtain ⟨values, -, hfs⟩ := Option.bind_eq_some_iff.1 hfs
    obtain ⟨inner, hinner, hfs⟩ := Option.bind_eq_some_iff.1 hfs
    cases hfs
    intro f hf
    obtain ⟨front, hfront, hf⟩ := List.mem_flatten.1 hf
    obtain ⟨⟨⟨part, hpart⟩, x⟩, -, hx⟩ := exists_of_mem_mapM hinner hfront
    have hfree := hparts h part hpart
    simp only at hx
    split at hx
    · exact ih part hpart x hfree hx f hf
    · cases hx
      rwa [List.mem_singleton.1 hf]
  | case2 type value =>
    cases hfs
    exact List.forall_mem_singleton.2 h
  | case3 => cases hfs

/-- The parts of a value have no choice in their types if the value has none. -/
lemma isChoiceFree_parts {v : TypedValue} {ps : List Part} (h : v.type.isChoiceFree)
    (hps : v.parts = .ok ps) {p : Part} (hp : p ∈ ps) {c : TypedValue} (hc : p.child? = some c) :
    c.type.isChoiceFree := by
  cases divides_of_parts hps with
  | pair _ hfs =>
    exact isChoiceFree_fields h hfs c (mem_values_nameFields hp (Part.mem_values_of_child? hc))
  | items hv hprim _ =>
    rw [hv] at h
    obtain ⟨i, hi, rfl⟩ := List.mem_mapIdx.1 hp
    cases hc
    refine isChoiceFree_arg h ?_ ?_ List.mem_cons_self
    · rcases hprim with rfl | rfl <;> simp
    · rcases hprim with rfl | rfl <;> simp
  | entries hv hprim _ =>
    rw [hv] at h
    obtain ⟨e, -, rfl⟩ := List.mem_map.1 hp
    unfold entry at hc
    split at hc
    · cases hc
      exact isChoiceFree_value h hprim
    · cases hc
  | none => exact absurd hp List.not_mem_nil

end TypedValue

end Michelson
