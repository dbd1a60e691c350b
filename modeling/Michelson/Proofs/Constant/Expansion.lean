/-
# What expansion leaves

`Expands` is the substitution of all known references, in what comes to light as well.  Nothing in
it counts levels, so a tree whose references go round in a circle expands to nothing.  The
expansion that counts gives this tree, and it fails exactly where references nest too deep
(`expandWithin_eq_none_iff`).

No reference that is known is left, provided that no reference names its hash by a reference: the
substitution does not look again at a node of which it has changed the parts.

The main statement is `expand_iff_need_le`.
-/
import Michelson.Proofs.Constant.Need
import Michelson.Proofs.Packed.Opening

namespace Michelson

variable {dict : Dictionary} {e x tree : Expr} {levels : Nat}

namespace Dictionary

mutual

/-- A known expression takes the place of a reference to it, and is expanded itself; any other node
is kept with its parts expanded. -/
inductive Expands (dict : Dictionary) : Expr → Expr → Prop
  | known {e x tree : Expr} : dict.lookup? e = some x → Expands dict x tree → Expands dict e tree
  | kept {e : Expr} {parts : List Expr} :
      dict.lookup? e = none → ExpandsAll dict e.args parts → Expands dict e (e.withArgs parts)

/-- The trees of a list are expanded one by one. -/
inductive ExpandsAll (dict : Dictionary) : List Expr → List Expr → Prop
  | nil : ExpandsAll dict [] []
  | cons {e tree : Expr} {es trees : List Expr} :
      Expands dict e tree → ExpandsAll dict es trees → ExpandsAll dict (e :: es) (tree :: trees)

end

end Dictionary

namespace Expr

open Dictionary

/-! ### One level -/

lemma substitute_of_lookup? {f : Expr → Expr × Option ShapeFault} (h : dict.lookup? e = some x) :
    substitute dict.lookup? f e = f x := by
  cases e with
  | literal l u => cases h
  | seq items u => cases h
  | app p args annots w u => rw [substitute, h]

lemma substitute_of_lookup?_eq_none {f : Expr → Expr × Option ShapeFault}
    (h : dict.lookup? e = none) :
    substitute dict.lookup? f e = (e.withArgs (substituteAll dict.lookup? f e.args).1,
      (substituteAll dict.lookup? f e.args).2) := by
  cases e with
  | literal l u => rfl
  | seq items u => rfl
  | app p args annots w u =>
    rw [substitute, h]
    rfl

section

variable {lookup : Expr → Option Expr} {f : Expr → Expr × Option ShapeFault} {es : List Expr}
  {fault : ShapeFault}

lemma substituteAll_cons_of_eq_none (h : (substitute lookup f e).2 = none) :
    substituteAll lookup f (e :: es) =
      ((substitute lookup f e).1 :: (substituteAll lookup f es).1,
        (substituteAll lookup f es).2) := by
  rw [substituteAll, ← Prod.eta (substitute lookup f e), h]

lemma substituteAll_cons_of_eq_some (h : (substitute lookup f e).2 = some fault) :
    substituteAll lookup f (e :: es) = ((substitute lookup f e).1 :: es, some fault) := by
  rw [substituteAll, ← Prod.eta (substitute lookup f e), h]

lemma substituteAll_eq_none_iff :
    (substituteAll lookup f es).2 = none ↔ ∀ e ∈ es, (substitute lookup f e).2 = none := by
  induction es with
  | nil => simp [substituteAll]
  | cons e es ih =>
    rw [List.forall_mem_cons, ← ih]
    cases he : (substitute lookup f e).2 with
    | none => rw [substituteAll_cons_of_eq_none he, eq_self_iff_true, true_and]
    | some fault => simp [substituteAll_cons_of_eq_some he]

lemma substituteAll_eq_map (h : (substituteAll lookup f es).2 = none) :
    (substituteAll lookup f es).1 = es.map fun e => (substitute lookup f e).1 := by
  induction es with
  | nil => rfl
  | cons e es ih =>
    obtain ⟨he, hes⟩ := List.forall_mem_cons.1 (substituteAll_eq_none_iff.1 h)
    rw [substituteAll_cons_of_eq_none he, List.map_cons, ih (substituteAll_eq_none_iff.2 hes)]

end

/-- One level of substitution fails exactly where the expansion of some tree behind a reference
that it meets fails. -/
lemma substitute_eq_none_iff {f : Expr → Expr × Option ShapeFault} :
    (substitute dict.lookup? f e).2 = none ↔ ∀ x ∈ dict.met e, (f x).2 = none := by
  induction e using inductArgs with
  | node e ih =>
    cases h : dict.lookup? e with
    | some x => rw [substitute_of_lookup? h, met_of_lookup? h, List.forall_mem_singleton]
    | none =>
      rw [substitute_of_lookup?_eq_none h, met_of_lookup?_eq_none h, List.forall_mem_flatMap,
        substituteAll_eq_none_iff]
      exact forall₂_congr ih

lemma exists_fault_of_substituteAll {lookup : Expr → Option Expr}
    {f : Expr → Expr × Option ShapeFault} {fault : ShapeFault} {es : List Expr}
    (h : (substituteAll lookup f es).2 = some fault) :
    ∃ e ∈ es, (substitute lookup f e).2 = some fault := by
  induction es with
  | nil => cases h
  | cons e es ih =>
    cases he : (substitute lookup f e).2 with
    | none =>
      rw [substituteAll_cons_of_eq_none he] at h
      obtain ⟨a, ha, hfault⟩ := ih h
      exact ⟨a, List.mem_cons_of_mem e ha, hfault⟩
    | some first =>
      rw [substituteAll_cons_of_eq_some he] at h
      exact ⟨e, List.mem_cons_self, he.trans h⟩

/-- The fault of a failed substitution comes from a tree behind a reference. -/
lemma exists_fault_of_substitute {f : Expr → Expr × Option ShapeFault} {fault : ShapeFault}
    (h : (substitute dict.lookup? f e).2 = some fault) : ∃ x, (f x).2 = some fault := by
  induction e using inductArgs with
  | node e ih =>
    cases hlookup : dict.lookup? e with
    | some x =>
      rw [substitute_of_lookup? hlookup] at h
      exact ⟨x, h⟩
    | none =>
      rw [substitute_of_lookup?_eq_none hlookup] at h
      obtain ⟨a, ha, hfault⟩ := exists_fault_of_substituteAll h
      exact ih a ha hfault

/-! ### All levels -/

/-- Expansion within one level more than references need goes through, and no other does. -/
theorem expandWithin_eq_none_iff :
    (expandWithin dict (levels + 1) e).2 = none ↔ dict.need e ≤ levels := by
  induction levels generalizing e with
  | zero =>
    rw [expandWithin, substitute_eq_none_iff, Nat.cast_zero, need_le_zero_iff,
      List.eq_nil_iff_forall_not_mem]
    simp [expandWithin]
  | succ levels ih =>
    rw [expandWithin, substitute_eq_none_iff, need_le_succ_iff]
    exact forall₂_congr fun x _ => ih

lemma fault_of_expandWithin {fault : ShapeFault}
    (h : (expandWithin dict levels e).2 = some fault) : fault = .expansionTooDeep := by
  induction levels generalizing e with
  | zero => exact (Option.some.inj h).symm
  | succ levels ih =>
    obtain ⟨x, hx⟩ := exists_fault_of_substitute h
    exact ih hx

lemma expandsAll_map {f : Expr → Expr} {es : List Expr} (h : ∀ e ∈ es, Expands dict e (f e)) :
    ExpandsAll dict es (es.map f) := by
  induction es with
  | nil => exact .nil
  | cons e es ih =>
    exact .cons (h e List.mem_cons_self) (ih fun a ha => h a (List.mem_cons_of_mem e ha))

lemma expands_expandWithin (h : (expandWithin dict levels e).2 = none) :
    Expands dict e (expandWithin dict levels e).1 := by
  induction levels generalizing e with
  | zero => cases h
  | succ levels ihLevels =>
    rw [expandWithin] at h ⊢
    induction e using inductArgs with
    | node e ih =>
      cases hlookup : dict.lookup? e with
      | some x =>
        rw [substitute_of_lookup? hlookup] at h ⊢
        exact .known hlookup (ihLevels h)
      | none =>
        rw [substitute_of_lookup?_eq_none hlookup] at h ⊢
        rw [substituteAll_eq_map h]
        exact .kept hlookup (expandsAll_map fun a ha => ih a ha (substituteAll_eq_none_iff.1 h a ha))

end Expr

namespace Dictionary

/-- A tree has at most one expansion. -/
lemma Expands.unique {other : Expr} (h : dict.Expands e tree) (hother : dict.Expands e other) :
    other = tree := by
  induction h using Expands.rec
    (motive_2 := fun es trees _ => ∀ others, dict.ExpandsAll es others → others = trees)
    generalizing other with
  | known hlookup _ ih =>
    cases hother with
    | known hagain htree =>
      rw [hlookup] at hagain
      cases hagain
      exact ih htree
    | kept hnone _ =>
      rw [hlookup] at hnone
      cases hnone
  | kept hnone _ ih =>
    cases hother with
    | known hlookup _ =>
      rw [hnone] at hlookup
      cases hlookup
    | kept _ hparts => rw [ih _ hparts]
  | nil others hothers =>
    cases hothers
    rfl
  | cons _ _ ih ihs others hothers =>
    cases hothers with
    | cons htree htrees => rw [ih htree, ihs _ htrees]

lemma ExpandsAll.forall₂ {es trees : List Expr} (h : dict.ExpandsAll es trees) :
    List.Forall₂ dict.Expands es trees := by
  induction es generalizing trees with
  | nil =>
    cases h
    exact .nil
  | cons e es ih =>
    cases h with
    | cons htree htrees => exact .cons htree (ih htrees)

/-! ### What is left -/

/-- In no `constant` of the tree does a known reference stand for the hash.  In particular this
holds where no `constant` has a `constant` for its first argument. -/
def IsPlain (dict : Dictionary) (e : Expr) : Prop :=
  ∀ n ∈ e.nodes, n.applies .constant → (n.arg? 0).bind dict.lookup? = none

instance (dict : Dictionary) (e : Expr) : Decidable (dict.IsPlain e) :=
  inferInstanceAs (Decidable (∀ n ∈ e.nodes,
    n.applies .constant → (n.arg? 0).bind dict.lookup? = none))

lemma IsPlain.of_mem_args {a : Expr} (h : dict.IsPlain e) (ha : a ∈ e.args) : dict.IsPlain a :=
  fun n hn => h n (Expr.mem_nodes_of_mem_args ha hn)

lemma isPlain_of_lookup? (hdict : ∀ hash x, NameMap.find? hash dict = some x → dict.IsPlain x)
    (h : dict.lookup? e = some x) : dict.IsPlain x := by
  obtain ⟨hash, -, hfind⟩ := Option.bind_eq_some_iff.1 h
  exact hdict hash x hfind

lemma Expands.string?_eq (h : dict.Expands e tree) (hnone : dict.lookup? e = none) :
    tree.string? = e.string? := by
  cases h with
  | known hlookup _ =>
    rw [hnone] at hlookup
    cases hlookup
  | kept _ _ => cases e <;> rfl

/-- A node with other parts is the same reference, if only known references have become other
texts. -/
lemma lookup?_withArgs {parts : List Expr}
    (hplain : e.applies .constant → (e.arg? 0).bind dict.lookup? = none)
    (h : List.Forall₂ (fun a part => dict.lookup? a = none → part.string? = a.string?)
      e.args parts) : dict.lookup? (e.withArgs parts) = dict.lookup? e := by
  rcases e with ⟨l, u⟩ | ⟨items, u⟩ | ⟨p, args, annots, w, u⟩
  · rfl
  · rfl
  · by_cases hp : p = .constant
    · subst hp
      cases h with
      | nil => rfl
      | @cons a part rest parts hfirst _ =>
        have href : (Expr.app .constant (part :: parts) annots w u).reference? =
          (Expr.app .constant (a :: rest) annots w u).reference? := hfirst (hplain rfl)
        rw [Expr.withArgs, lookup?, lookup?, href]
    · have hprim : (Expr.app p args annots w u).prim? ≠ some .constant :=
        fun heq => hp (Option.some.inj heq)
      rw [lookup?_eq_none_of_prim? hprim]
      exact lookup?_eq_none_of_prim? hprim

/-- A full expansion has no known reference. -/
lemma Expands.lookup?_eq_none (hdict : ∀ hash x, NameMap.find? hash dict = some x → dict.IsPlain x)
    (h : dict.Expands e tree) (he : dict.IsPlain e) : ∀ n ∈ tree.nodes, dict.lookup? n = none := by
  induction h using Expands.rec
    (motive_2 := fun es trees _ => (∀ e ∈ es, dict.IsPlain e) →
      ∀ t ∈ trees, ∀ n ∈ t.nodes, dict.lookup? n = none) with
  | known hlookup _ ih => exact ih (isPlain_of_lookup? hdict hlookup)
  | @kept e parts hnone hparts ih =>
    have hroot := he e (Expr.mem_nodes_self e)
    have hstrings := hparts.forall₂.imp fun a part hpart => hpart.string?_eq
    have hkept : dict.lookup? (e.withArgs parts) = none :=
      (lookup?_withArgs hroot hstrings).trans hnone
    refine Expr.forall_mem_nodes.2 ⟨hkept, ?_⟩
    exact fun t ht => ih (fun a ha => he.of_mem_args ha) t (Expr.args_withArgs_subset e parts ht)
  | nil _ t ht => cases ht
  | cons _ _ ih ihs hplain t ht n hn =>
    obtain ⟨he, hes⟩ := List.forall_mem_cons.1 hplain
    rcases List.mem_cons.1 ht with rfl | ht
    · exact ih he n hn
    · exact ihs hes t ht n hn

lemma met_eq_nil (h : ∀ n ∈ e.nodes, dict.lookup? n = none) : dict.met e = [] := by
  induction e using Expr.inductArgs with
  | node e ih =>
    obtain ⟨hroot, hargs⟩ := Expr.forall_mem_nodes.1 h
    rw [met_of_lookup?_eq_none hroot]
    exact List.flatMap_eq_nil_iff.2 fun a ha => ih a ha (hargs a ha)

lemma expands_self (h : ∀ n ∈ e.nodes, dict.lookup? n = none) : dict.Expands e e := by
  induction e using Expr.inductArgs with
  | node e ih =>
    obtain ⟨hroot, hargs⟩ := Expr.forall_mem_nodes.1 h
    have hparts := Expr.expandsAll_map fun a ha => ih a ha (hargs a ha)
    rw [List.map_id'] at hparts
    have hkept := Expands.kept hroot hparts
    rwa [Expr.withArgs_args] at hkept

end Dictionary

namespace Expr

open Dictionary

/-- Where no reference is known, expansion changes nothing. -/
lemma expand_eq_self (h : ∀ n ∈ e.nodes, dict.lookup? n = none) : expand dict e = (e, none) := by
  have hok : (expand dict e).2 = none := by
    exact expandWithin_eq_none_iff.2 ((need_le_zero_iff.2 (met_eq_nil h)).trans bot_le)
  refine Prod.ext ?_ hok
  exact (expands_self h).unique (expands_expandWithin hok)

/-- An expansion that goes through leaves no known reference. -/
lemma lookup?_expand_eq_none
    (hdict : ∀ hash x, NameMap.find? hash dict = some x → dict.IsPlain x) (he : dict.IsPlain e)
    (hok : (expand dict e).2 = none) : ∀ n ∈ (expand dict e).1.nodes, dict.lookup? n = none :=
  (expands_expandWithin hok).lookup?_eq_none hdict he

/-- Expansion ends on every dictionary, with cycles or without: it goes through exactly where
references nest at most 64 deep, and otherwise has the fault that they nest too deep.  What it gives
is the one full substitution; it has no known reference, and a second expansion changes nothing. -/
theorem expand_iff_need_le (dict : Dictionary) (e : Expr) (he : dict.IsPlain e)
    (hdict : ∀ hash x, NameMap.find? hash dict = some x → dict.IsPlain x) :
    ((expand dict e).2 = none ↔ dict.need e ≤ 64) ∧
      (64 < dict.need e → (expand dict e).2 = some .expansionTooDeep) ∧
      (dict.need e ≤ 64 →
        (∀ tree, dict.Expands e tree ↔ tree = (expand dict e).1) ∧
          (∀ n ∈ (expand dict e).1.nodes, dict.lookup? n = none) ∧
          expand dict (expand dict e).1 = ((expand dict e).1, none)) := by
  have hiff : (expand dict e).2 = none ↔ dict.need e ≤ 64 := expandWithin_eq_none_iff
  refine ⟨hiff, fun hlt => ?_, fun hle => ?_⟩
  · cases hfault : (expand dict e).2 with
    | none => exact absurd (hiff.1 hfault) (not_le.2 hlt)
    | some fault => rw [fault_of_expandWithin hfault]
  · have hexpands : dict.Expands e (expand dict e).1 := expands_expandWithin (hiff.2 hle)
    have hknown := lookup?_expand_eq_none hdict he (hiff.2 hle)
    refine ⟨fun tree => ⟨hexpands.unique, ?_⟩, hknown, expand_eq_self hknown⟩
    rintro rfl
    exact hexpands

/-- A reference behind a reference, a reference that is not known, and a dictionary in which another
reference leads back to itself. -/
theorem expand_iff_need_le_nested :
    let constant (hash : String) := apply1 .constant (string hash)
    let dict : Dictionary := [("counter", type2 .pair (constant "amount") (constant "owner")),
      ("amount", type0 .nat), ("loop", type1 .list (constant "loop"))]
    let e := list [constant "counter", constant "amount"]
    let r := list [type2 .pair (type0 .nat) (constant "owner"), type0 .nat]
    dict.IsPlain e ∧ (∀ hash x, NameMap.find? hash dict = some x → dict.IsPlain x) ∧
      dict.need e ≤ 64 ∧ dict.Expands e r ∧ expand dict r = (r, none) ∧
      64 < dict.need (constant "loop") ∧
      (expand dict (constant "loop")).2 = some .expansionTooDeep := by
  intro constant dict e r
  have hvalues : ∀ x ∈ dict.map Prod.snd, dict.IsPlain x := by decide +kernel
  have hdict : ∀ hash x, NameMap.find? hash dict = some x → dict.IsPlain x :=
    fun hash x hfind => hvalues x (List.mem_map_of_mem (NameMap.mem_of_find? hfind))
  have he : dict.IsPlain e := by decide +kernel
  have hloop : dict.IsPlain (constant "loop") := by decide +kernel
  obtain ⟨hiff, -, hresult⟩ := expand_iff_need_le dict e he hdict
  have hok : expand dict e = (r, none) := by rfl
  have hneed : dict.need e ≤ 64 := hiff.1 (by rw [hok])
  obtain ⟨htree, -, hagain⟩ := hresult hneed
  rw [hok] at htree hagain
  obtain ⟨hloopIff, hfault, -⟩ := expand_iff_need_le dict (constant "loop") hloop hdict
  have hdeep : 64 < dict.need (constant "loop") := by
    refine not_le.1 fun hle => ?_
    have hnone := hloopIff.2 hle
    revert hnone
    decide +kernel
  exact ⟨he, hdict, hneed, (htree r).2 rfl, hagain, hdeep, hfault hdeep⟩

end Expr

end Michelson
