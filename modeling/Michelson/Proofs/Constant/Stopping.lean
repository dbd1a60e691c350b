/-
# What a failed expansion leaves

An expansion that fails stops at a reference with too many references in front of it, and the
expression behind that reference is put in its place as it is.  Everything before this place has
been expanded and everything behind it is as it was (`Stops`).

Nothing is lost by this.  A full expansion of what is left is a full expansion of the tree itself,
also under a dictionary that knows more references (`Stops.sameUnder`).
-/
import Michelson.Proofs.Constant.Expansion

namespace Michelson

variable {dict dict' : Dictionary} {e x tree t : Expr} {es parts trees : List Expr} {levels n : Nat}

namespace Dictionary

mutual

/-- What is left of a tree if its expansion stops behind `n` references, each of which stands in
the expression of the one before it. -/
inductive Stops (dict : Dictionary) : Nat → Expr → Expr → Prop
  | here (e : Expr) : Stops dict 0 e e
  | known {n : Nat} {e x tree : Expr} :
      dict.lookup? e = some x → Stops dict n x tree → Stops dict (n + 1) e tree
  | kept {n : Nat} {e : Expr} {parts : List Expr} :
      dict.lookup? e = none → StopsAmong dict (n + 1) e.args parts →
        Stops dict (n + 1) e (e.withArgs parts)

/-- The expansion of the trees of a list stops in one of them.  In the trees before it references
nest less deep. -/
inductive StopsAmong (dict : Dictionary) : Nat → List Expr → List Expr → Prop
  | head {n : Nat} {e tree : Expr} {es : List Expr} :
      Stops dict n e tree → StopsAmong dict n (e :: es) (tree :: es)
  | tail {n : Nat} {e tree : Expr} {es trees : List Expr} :
      dict.need e < n → Expands dict e tree → StopsAmong dict n es trees →
        StopsAmong dict n (e :: es) (tree :: trees)

end

end Dictionary

namespace Expr

open Dictionary

/-! ### Where an expansion stops -/

/-- A list of trees is expanded up to the tree in which the expansion stops. -/
lemma stopsAmong_substituteAll {fault : ShapeFault}
    (hes : ∀ e ∈ es, (expandWithin dict (levels + 1) e).2 = some fault →
      dict.Stops (levels + 1) e (expandWithin dict (levels + 1) e).1)
    (h : (substituteAll dict.lookup? (expandWithin dict levels) es).2 = some fault) :
    dict.StopsAmong (levels + 1) es
      (substituteAll dict.lookup? (expandWithin dict levels) es).1 := by
  induction es with
  | nil => cases h
  | cons e es ih =>
    obtain ⟨he, hes⟩ := List.forall_mem_cons.1 hes
    cases hfault : (expandWithin dict (levels + 1) e).2 with
    | none =>
      have hneed : dict.need e < (levels + 1 : ℕ) :=
        ENat.lt_natCast_add_one_iff.2 (expandWithin_eq_none_iff.1 hfault)
      have hexpands := expands_expandWithin hfault
      rw [expandWithin] at hfault hexpands
      rw [substituteAll_cons_of_eq_none hfault] at h ⊢
      exact .tail hneed hexpands (ih hes h)
    | some first =>
      rw [expandWithin] at hfault he
      rw [substituteAll_cons_of_eq_some hfault] at h ⊢
      cases h
      exact .head (he hfault)

lemma stops_expandWithin {fault : ShapeFault}
    (h : (expandWithin dict levels e).2 = some fault) :
    dict.Stops levels e (expandWithin dict levels e).1 := by
  induction levels generalizing e with
  | zero => exact .here e
  | succ levels ihLevels =>
    induction e using inductArgs with
    | node e ih =>
      rw [expandWithin] at h ⊢
      cases hlookup : dict.lookup? e with
      | some x =>
        rw [substitute_of_lookup? hlookup] at h ⊢
        exact .known hlookup (ihLevels h)
      | none =>
        rw [substitute_of_lookup?_eq_none hlookup] at h ⊢
        exact .kept hlookup (stopsAmong_substituteAll ih h)

end Expr

namespace Dictionary

/-! ### Going on with what is left -/

/-- A full expansion of the second tree is one of the first, and the second tree still names what
the first one names. -/
structure SameUnder (dict : Dictionary) (e tree : Expr) : Prop where
  string?_eq : dict.lookup? e = none → tree.string? = e.string?
  expands_iff : ∀ t, dict.Expands tree t ↔ dict.Expands e t

/-- The second dictionary has all references of the first with their expressions. -/
def IsWithin (dict dict' : Dictionary) : Prop :=
  ∀ hash x, NameMap.find? hash dict = some x → NameMap.find? hash dict' = some x

lemma IsWithin.lookup?_eq_some (hle : dict.IsWithin dict') (h : dict.lookup? e = some x) :
    dict'.lookup? e = some x := by
  obtain ⟨hash, href, hfind⟩ := Option.bind_eq_some_iff.1 h
  exact Option.bind_eq_some_iff.2 ⟨hash, href, hle hash x hfind⟩

lemma expands_iff_of_lookup? (h : dict.lookup? e = some x) :
    dict.Expands e t ↔ dict.Expands x t := by
  refine ⟨fun ht => ?_, .known h⟩
  cases ht with
  | known hlookup ht =>
    cases h.symm.trans hlookup
    exact ht
  | kept hnone _ => cases h.symm.trans hnone

lemma expands_iff_of_lookup?_eq_none (h : dict.lookup? e = none) :
    dict.Expands e t ↔ ∃ parts, dict.ExpandsAll e.args parts ∧ e.withArgs parts = t := by
  constructor
  · intro ht
    cases ht with
    | known hlookup _ => cases h.symm.trans hlookup
    | kept _ hparts => exact ⟨_, hparts, rfl⟩
  · rintro ⟨parts, hparts, rfl⟩
    exact .kept h hparts

lemma SameUnder.refl (dict : Dictionary) (e : Expr) : dict.SameUnder e e :=
  ⟨fun _ => rfl, fun _ => Iff.rfl⟩

lemma SameUnder.of_lookup? (h : dict.lookup? e = some x) (hx : dict.SameUnder x tree) :
    dict.SameUnder e tree where
  string?_eq hnone := by cases h.symm.trans hnone
  expands_iff t := (hx.expands_iff t).trans (expands_iff_of_lookup? h).symm

lemma expandsAll_iff_of_sameUnder (h : List.Forall₂ dict.SameUnder es parts) :
    dict.ExpandsAll parts trees ↔ dict.ExpandsAll es trees := by
  induction h generalizing trees with
  | nil => exact Iff.rfl
  | cons hfirst _ ih =>
    constructor
    · rintro (_ | ⟨htree, htrees⟩)
      exact .cons ((hfirst.expands_iff _).1 htree) (ih.1 htrees)
    · rintro (_ | ⟨htree, htrees⟩)
      exact .cons ((hfirst.expands_iff _).2 htree) (ih.2 htrees)

/-- Parts that go on to the same expansions make a node that does so. -/
lemma SameUnder.withArgs (he : dict.IsPlain e) (h : List.Forall₂ dict.SameUnder e.args parts) :
    dict.SameUnder e (e.withArgs parts) := by
  have hstrings := h.imp fun a part hpart => hpart.string?_eq
  have hlookup : dict.lookup? (e.withArgs parts) = dict.lookup? e :=
    lookup?_withArgs (he e (Expr.mem_nodes_self e)) hstrings
  have hargs : (e.withArgs parts).args = parts := Expr.args_withArgs h.length_eq
  refine ⟨fun _ => by cases e <;> rfl, fun t => ?_⟩
  cases hx : dict.lookup? e with
  | some x => rw [expands_iff_of_lookup? hx, expands_iff_of_lookup? (hlookup.trans hx)]
  | none =>
    rw [expands_iff_of_lookup?_eq_none hx, expands_iff_of_lookup?_eq_none (hlookup.trans hx), hargs]
    refine exists_congr fun trees => ?_
    rw [expandsAll_iff_of_sameUnder h, Expr.withArgs_withArgs]

/-- Under a dictionary with more references a full expansion goes on to the same trees. -/
lemma Expands.sameUnder (hle : dict.IsWithin dict')
    (hdict : ∀ hash x, NameMap.find? hash dict' = some x → dict'.IsPlain x)
    (h : dict.Expands e tree) (he : dict'.IsPlain e) : dict'.SameUnder e tree := by
  induction h using Expands.rec
    (motive_2 := fun es trees _ => (∀ e ∈ es, dict'.IsPlain e) →
      List.Forall₂ dict'.SameUnder es trees) with
  | known hlookup _ ih =>
    have hlookup' := hle.lookup?_eq_some hlookup
    exact .of_lookup? hlookup' (ih (isPlain_of_lookup? hdict hlookup'))
  | kept _ _ ih => exact .withArgs he (ih fun a ha => he.of_mem_args ha)
  | nil => exact .nil
  | cons _ _ ih ihs hes =>
    obtain ⟨he, hes⟩ := List.forall_mem_cons.1 hes
    exact .cons (ih he) (ihs hes)

lemma StopsAmong.sameUnder (hle : dict.IsWithin dict')
    (hdict : ∀ hash x, NameMap.find? hash dict' = some x → dict'.IsPlain x)
    (hsame : ∀ e ∈ es, ∀ tree, dict.Stops n e tree → dict'.SameUnder e tree)
    (h : dict.StopsAmong n es trees) (hes : ∀ e ∈ es, dict'.IsPlain e) :
    List.Forall₂ dict'.SameUnder es trees := by
  induction es generalizing trees with
  | nil => cases h
  | cons e es ih =>
    obtain ⟨hfirst, hrest⟩ := List.forall_mem_cons.1 hsame
    obtain ⟨he, hes⟩ := List.forall_mem_cons.1 hes
    cases h with
    | head htree => exact .cons (hfirst _ htree) (List.forall₂_same.2 fun a _ => .refl dict' a)
    | tail _ hexpands htrees =>
      exact .cons (hexpands.sameUnder hle hdict he) (ih hrest htrees hes)

/-- What a failed expansion leaves goes on to the same trees as well. -/
lemma Stops.sameUnder (hle : dict.IsWithin dict')
    (hdict : ∀ hash x, NameMap.find? hash dict' = some x → dict'.IsPlain x)
    (h : dict.Stops n e tree) (he : dict'.IsPlain e) : dict'.SameUnder e tree := by
  induction n generalizing e tree with
  | zero =>
    cases h
    exact .refl dict' e
  | succ n ihRest =>
    induction e using Expr.inductArgs generalizing tree with
    | node e ih =>
      cases h with
      | known hlookup htree =>
        have hlookup' := hle.lookup?_eq_some hlookup
        exact .of_lookup? hlookup' (ihRest htree (isPlain_of_lookup? hdict hlookup'))
      | kept _ hparts =>
        have hargs : ∀ a ∈ e.args, dict'.IsPlain a := fun a ha => he.of_mem_args ha
        exact .withArgs he (hparts.sameUnder hle hdict
          (fun a ha tree htree => ih a ha htree (hargs a ha)) hargs)

end Dictionary

end Michelson
