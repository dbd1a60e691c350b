/-
# How deep references nest

A walk from the root of a tree meets known references, and behind each of them there is another
tree to walk.  `Dictionary.need` is the length of the longest chain of trees that come to light this
way.  It is one more than the need of some tree behind a reference that is met, zero where no
reference is known (`need_eq`), and without bound exactly where a reference leads back to itself
(`need_eq_top_iff`).
-/
import Mathlib
import Michelson.Constant
import Michelson.Proofs.Expr.Traversal
import Michelson.Proofs.NameMap

namespace Michelson.Dictionary

variable {dict : Dictionary} {e x : Expr} {levels : Nat}

/-! ### Known references -/

lemma lookup?_eq_none_of_prim? (h : e.prim? ≠ some .constant) : dict.lookup? e = none := by
  rcases e with _ | _ | ⟨p, args, annots, w, u⟩
  · rfl
  · rfl
  · have hp : p ≠ .constant := fun heq => h (by rw [heq]; rfl)
    rw [lookup?, Expr.reference?.eq_2, Option.bind_none]
    rintro a rest annots w u heq
    cases heq
    exact hp rfl

/-- What stands behind a reference is an expression of the dictionary. -/
lemma mem_map_snd_of_lookup? (h : dict.lookup? e = some x) : x ∈ dict.map Prod.snd := by
  obtain ⟨hash, -, hfind⟩ := Option.bind_eq_some_iff.1 h
  exact List.mem_map_of_mem (NameMap.mem_of_find? hfind)

/-- The trees behind the known references that a walk meets from the root down.  The walk does not
go on below a known reference. -/
def met (dict : Dictionary) (e : Expr) : List Expr :=
  (e.visited fun n => (dict.lookup? n).isSome).filterMap dict.lookup?

lemma met_of_lookup? (h : dict.lookup? e = some x) : dict.met e = [x] := by
  rw [met, Expr.visited_eq_cons, if_pos (by rw [h]; rfl), List.filterMap_cons_some h,
    List.filterMap_nil]

lemma met_of_lookup?_eq_none (h : dict.lookup? e = none) :
    dict.met e = e.args.flatMap dict.met := by
  have hskip : ¬ (dict.lookup? e).isSome = true := by simp [h]
  rw [met, Expr.visited_eq_cons, if_neg hskip, List.filterMap_cons_none h, List.filterMap_flatMap]
  rfl

lemma mem_map_snd_of_mem_met (h : x ∈ dict.met e) : x ∈ dict.map Prod.snd := by
  obtain ⟨n, -, hn⟩ := List.mem_filterMap.1 h
  exact mem_map_snd_of_lookup? hn

/-! ### Chains of references -/

/-- Walking the first tree leads to a known reference to the second. -/
def Meets (dict : Dictionary) (e x : Expr) : Prop := x ∈ dict.met e

/-- How deep known references nest below a tree: the greatest number of trees that come to light
one behind the other. -/
noncomputable def need (dict : Dictionary) (e : Expr) : ℕ∞ :=
  ⨆ xs : List Expr, ⨆ _ : (e :: xs).IsChain dict.Meets, (xs.length : ℕ∞)

lemma need_le_iff {bound : ℕ∞} :
    dict.need e ≤ bound ↔ ∀ xs, (e :: xs).IsChain dict.Meets → (xs.length : ℕ∞) ≤ bound :=
  iSup₂_le_iff

lemma length_le_need {xs : List Expr} (h : (e :: xs).IsChain dict.Meets) :
    (xs.length : ℕ∞) ≤ dict.need e :=
  need_le_iff.1 le_rfl xs h

lemma need_le_zero_iff : dict.need e ≤ 0 ↔ dict.met e = [] := by
  rw [need_le_iff, List.eq_nil_iff_forall_not_mem]
  constructor
  · intro h x hx
    have hlength := h [x] (List.isChain_cons_cons.2 ⟨hx, List.isChain_singleton x⟩)
    simp at hlength
  · rintro h (_ | ⟨x, xs⟩) hchain
    · exact le_rfl
    · exact absurd (List.isChain_cons_cons.1 hchain).1 (h x)

/-- A tree needs one level more than what it refers to. -/
lemma need_le_succ_iff :
    dict.need e ≤ (levels + 1 : ℕ) ↔ ∀ x ∈ dict.met e, dict.need x ≤ levels := by
  constructor
  · intro h x hx
    refine need_le_iff.2 fun xs hchain => ?_
    have hlength := (length_le_need (List.isChain_cons_cons.2 ⟨hx, hchain⟩)).trans h
    rw [Nat.cast_le, List.length_cons, Nat.succ_le_succ_iff] at hlength
    exact Nat.cast_le.2 hlength
  · intro h
    refine need_le_iff.2 ?_
    rintro (_ | ⟨x, xs⟩) hchain
    · exact Nat.cast_le.2 (Nat.zero_le _)
    · obtain ⟨hx, hxs⟩ := List.isChain_cons_cons.1 hchain
      have hlength := (length_le_need hxs).trans (h x hx)
      rw [Nat.cast_le] at hlength
      exact Nat.cast_le.2 (Nat.succ_le_succ hlength)

lemma need_add_one_le (h : dict.Meets e x) : dict.need x + 1 ≤ dict.need e := by
  cases hneed : dict.need e with
  | top => exact le_top
  | coe n =>
    cases n with
    | zero =>
      rw [Meets, need_le_zero_iff.1 hneed.le] at h
      exact absurd h List.not_mem_nil
    | succ levels => exact add_le_add_left (need_le_succ_iff.1 hneed.le x h) 1

lemma need_le_of_reaches (h : Relation.ReflTransGen dict.Meets e x) :
    dict.need x ≤ dict.need e := by
  induction h with
  | refl => exact le_rfl
  | tail _ hmeets ih => exact (le_self_add.trans (need_add_one_le hmeets)).trans ih

/-- The need of a tree from the needs of the trees behind the references that it meets. -/
theorem need_eq (dict : Dictionary) (e : Expr) :
    dict.need e = ⨆ x ∈ dict.met e, (dict.need x + 1) := by
  refine le_antisymm ?_ (iSup₂_le fun x hx => need_add_one_le hx)
  have hle : ∀ x ∈ dict.met e, dict.need x + 1 ≤ ⨆ x ∈ dict.met e, (dict.need x + 1) :=
    fun x hx => le_iSup₂_of_le x hx le_rfl
  cases hsup : ⨆ x ∈ dict.met e, (dict.need x + 1) with
  | top => exact le_top
  | coe n =>
    rw [hsup] at hle
    cases n with
    | zero =>
      refine need_le_zero_iff.2 (List.eq_nil_iff_forall_not_mem.2 fun x hx => ?_)
      exact absurd (hle x hx) (by simp)
    | succ levels =>
      refine need_le_succ_iff.2 fun x hx => ?_
      exact (ENat.add_le_add_iff_right ENat.one_ne_top).1 (hle x hx)

/-! ### Cycles -/

/-- What comes to light in a chain without a cycle comes to light once, and it is in the
dictionary. -/
lemma length_le_of_no_cycle {xs : List Expr}
    (hno : ∀ x, Relation.ReflTransGen dict.Meets e x → ¬ Relation.TransGen dict.Meets x x)
    (hchain : (e :: xs).IsChain dict.Meets) : xs.length ≤ dict.length := by
  have hpairs : (e :: xs).Pairwise (Relation.TransGen dict.Meets) :=
    (hchain.imp fun _ _ => Relation.TransGen.single).pairwise
  obtain ⟨hroot, hrest⟩ := List.pairwise_cons.1 hpairs
  have hnodup : xs.Nodup := by
    refine hrest.imp_of_mem fun {a b} ha _ hab => ?_
    rintro rfl
    exact hno a (hroot a ha).to_reflTransGen hab
  have hsubset : xs ⊆ dict.map Prod.snd := by
    intro x hx
    obtain ⟨y, -, hy⟩ := Relation.TransGen.tail'_iff.1 (hroot x hx)
    exact mem_map_snd_of_mem_met hy
  have hlength := hnodup.length_le_of_subset hsubset
  rwa [List.length_map] at hlength

/-- A need without bound is a cycle that can be reached. -/
theorem need_eq_top_iff :
    dict.need e = ⊤ ↔ ∃ x, Relation.ReflTransGen dict.Meets e x ∧
      Relation.TransGen dict.Meets x x := by
  constructor
  · intro htop
    by_contra! hno
    have hle : dict.need e ≤ dict.length :=
      need_le_iff.2 fun xs hchain => Nat.cast_le.2 (length_le_of_no_cycle hno hchain)
    rw [htop] at hle
    exact ENat.natCast_ne_top dict.length (top_le_iff.1 hle)
  · rintro ⟨x, hreach, hcycle⟩
    -- once around the cycle the need would grow by one
    obtain ⟨y, hmeets, hback⟩ := Relation.TransGen.head'_iff.1 hcycle
    have hgrow : dict.need x + 1 ≤ dict.need x :=
      (add_le_add_left (need_le_of_reaches hback) 1).trans (need_add_one_le hmeets)
    have htop : dict.need x = ⊤ := by
      by_contra hfinite
      exact not_le.2 ((ENat.lt_add_one_iff hfinite).2 le_rfl) hgrow
    exact top_le_iff.1 (htop.ge.trans (need_le_of_reaches hreach))

end Michelson.Dictionary
