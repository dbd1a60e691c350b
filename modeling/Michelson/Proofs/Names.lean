/-
# Names that are new

Among one candidate more than there are names in use there is a new one (`exists_le_not_mem`).  A base
with different numbers behind it gives different names, so some number makes a new name, and the
search for the smallest one succeeds (`freeNumber_spec`).  Every way to give out a name therefore gives a new one, and a run that gives
out names in turn gives none twice (`nodup_assign`).
-/
import Michelson.Names
import Michelson.Proofs.Text.Decimal

namespace Michelson.Names

variable {used : List String} {base : String}

lemma numbered_injective (base : String) : Function.Injective (numbered base) := by
  intro m n h
  have hdigits : toString (m : Int) = toString (n : Int) := (String.append_right_inj _).1 h
  have hread := congrArg Decimal.int? hdigits
  rw [Decimal.int?_toString, Decimal.int?_toString, Option.some.injEq] at hread
  exact Int.ofNat.inj hread

/-- Among one candidate more than there are names in use there is a new one. -/
lemma exists_le_not_mem {candidate : Nat → String} (hinjective : Function.Injective candidate)
    (used : List String) : ∃ n ≤ used.toFinset.card, candidate n ∉ used := by
  have hcard : used.toFinset.card <
      ((Finset.range (used.toFinset.card + 1)).image candidate).card := by
    rw [Finset.card_image_of_injective _ hinjective, Finset.card_range]
    exact Nat.lt_succ_self _
  obtain ⟨name, hname, hnew⟩ := Finset.exists_mem_notMem_of_card_lt_card hcard
  obtain ⟨n, hn, rfl⟩ := Finset.mem_image.1 hname
  exact ⟨n, Nat.le_of_lt_succ (Finset.mem_range.1 hn), by simpa using hnew⟩

/-- The number behind a base makes a new name, and every smaller number a name in use. -/
theorem freeNumber_spec (used : List String) (base : String) :
    numbered base (freeNumber used base) ∉ used ∧ freeNumber used base ≤ used.length ∧
      ∀ n < freeNumber used base, numbered base n ∈ used := by
  obtain ⟨n, hle, hnew⟩ := exists_le_not_mem (numbered_injective base) used
  have hn : n ∈ List.range (used.length + 1) :=
    List.mem_range.2 (Nat.lt_succ_of_le (hle.trans used.toFinset_card_le))
  have hfound : ((List.range (used.length + 1)).find?
      fun n => !used.contains (numbered base n)).isSome :=
    List.find?_isSome.2 ⟨n, hn, by simpa using hnew⟩
  obtain ⟨k, hk⟩ := Option.isSome_iff_exists.1 hfound
  have hfree : freeNumber used base = k := by rw [freeNumber, hk, Option.getD_some]
  obtain ⟨hknew, hkmem, hmin⟩ := List.find?_range_eq_some.1 hk
  rw [hfree]
  refine ⟨by simpa using hknew, Nat.le_of_lt_succ (List.mem_range.1 hkmem), fun m hm => ?_⟩
  simpa using hmin m hm

/-- A name is a base with the smallest number that makes it new. -/
def IsNumbered (used : List String) (base name : String) : Prop :=
  ∃ n, name = numbered base n ∧ numbered base n ∉ used ∧ ∀ m < n, numbered base m ∈ used

lemma isNumbered_reverse {name : String} :
    IsNumbered used.reverse base name ↔ IsNumbered used base name := by
  simp only [IsNumbered, List.mem_reverse]

lemma isNumbered_freshNumbered (used : List String) (base : String) :
    IsNumbered used base (freshNumbered used base) := by
  obtain ⟨hnew, -, hmin⟩ := freeNumber_spec used base
  exact ⟨freeNumber used base, rfl, hnew, hmin⟩

lemma freshNumbered_not_mem (used : List String) (base : String) :
    freshNumbered used base ∉ used :=
  (freeNumber_spec used base).1

lemma numbered_ne_empty (base : String) (n : Nat) : numbered base n ≠ "" := by
  simp [numbered]

lemma fresh_not_mem (used : List String) (wanted : String) : fresh used wanted ∉ used := by
  unfold fresh
  split
  · exact freshNumbered_not_mem used wanted
  · next h => simpa using h

/-- The wanted name is given when it is new, and otherwise gets the smallest number that makes it
new. -/
theorem fresh_spec (used : List String) (wanted : String) :
    (wanted ∉ used → fresh used wanted = wanted) ∧
      (wanted ∈ used → ∃ n, fresh used wanted = numbered wanted n ∧
        numbered wanted n ∉ used ∧ ∀ m < n, numbered wanted m ∈ used) := by
  refine ⟨fun hnew => ?_, fun hused => ?_⟩
  · rw [fresh, if_neg (by simpa using hnew)]
  · obtain ⟨hfree, -, hmin⟩ := freeNumber_spec used wanted
    rw [fresh, if_pos (by simpa using hused)]
    exact ⟨freeNumber used wanted, rfl, hfree, hmin⟩

lemma freshOr_some {wanted : String} (h : wanted ≠ "") (default : String) :
    freshOr used (some wanted) default = fresh used wanted := by
  rw [freshOr, Option.filter_some_pos (by simpa using h)]

lemma freshOr_not_mem (used : List String) (wanted : Option String) (default : String) :
    freshOr used wanted default ∉ used := by
  unfold freshOr
  split
  · exact fresh_not_mem used _
  · exact freshNumbered_not_mem used default

lemma freshOr_ne_empty (used : List String) (wanted : Option String) (default : String) :
    freshOr used wanted default ≠ "" := by
  unfold freshOr
  split
  · next name h =>
    have hname : name ≠ "" := by simpa using (Option.filter_eq_some_iff.1 h).2
    unfold fresh
    split
    · exact numbered_ne_empty name _
    · exact hname
  · exact numbered_ne_empty default _

/-! ### Names in turn -/

variable {α : Type} {name : List String → α → String}

lemma not_mem_of_mem_assign (hfresh : ∀ used wish, name used wish ∉ used) {wishes : List α}
    {given : String} (h : given ∈ assign name used wishes) : given ∉ used := by
  induction wishes generalizing used with
  | nil => exact absurd h List.not_mem_nil
  | cons wish wishes ih =>
    rw [assign] at h
    rcases List.mem_cons.1 h with rfl | h
    · exact hfresh used wish
    · exact fun hused => ih h (List.mem_cons_of_mem _ hused)

/-- When every name is new among those in use, no two names of a run are the same. -/
theorem nodup_assign (hfresh : ∀ used wish, name used wish ∉ used) (used : List String)
    (wishes : List α) : (assign name used wishes).Nodup := by
  induction wishes generalizing used with
  | nil => exact List.nodup_nil
  | cons wish wishes ih =>
    rw [assign]
    refine List.nodup_cons.2 ⟨fun hmem => ?_, ih _⟩
    exact not_mem_of_mem_assign hfresh hmem List.mem_cons_self

lemma exists_of_mem_assign {wishes : List α} {given : String}
    (h : given ∈ assign name used wishes) :
    ∃ used' wish, given = name used' wish := by
  induction wishes generalizing used with
  | nil => exact absurd h List.not_mem_nil
  | cons wish wishes ih =>
    rw [assign] at h
    rcases List.mem_cons.1 h with rfl | h
    · exact ⟨used, wish, rfl⟩
    · exact ih h

lemma length_assign (name : List String → α → String) (used : List String) (wishes : List α) :
    (assign name used wishes).length = wishes.length := by
  induction wishes generalizing used with
  | nil => rfl
  | cons wish rest ih => rw [assign, List.length_cons, ih, List.length_cons]

/-- The names given out before are in use when the run goes on. -/
lemma assign_append (name : List String → α → String) (used : List String)
    (wishes wishes' : List α) :
    assign name used (wishes ++ wishes') = assign name used wishes ++
      assign name ((assign name used wishes).reverse ++ used) wishes' := by
  induction wishes generalizing used with
  | nil => rfl
  | cons wish wishes ih =>
    rw [List.cons_append, assign, assign, ih, List.reverse_cons, List.append_assoc,
      List.singleton_append, List.cons_append]

/-- The names in use when a wish has its turn are those given out before it. -/
lemma getElem?_assign (name : List String → α → String) (used : List String) (wishes : List α)
    (i : Nat) :
    (assign name used wishes)[i]? =
      wishes[i]?.map (name (((assign name used wishes).take i).reverse ++ used)) := by
  induction wishes generalizing used i with
  | nil => rfl
  | cons wish wishes ih =>
    cases i with
    | zero => rfl
    | succ i =>
      rw [assign, List.getElem?_cons_succ, List.getElem?_cons_succ, ih, List.take_succ_cons,
        List.reverse_cons, List.append_assoc, List.singleton_append]

lemma assign_map {β : Type} (name : List String → β → String) (f : α → β) (used : List String)
    (wishes : List α) :
    assign name used (wishes.map f) = assign (fun used wish => name used (f wish)) used wishes := by
  induction wishes generalizing used with
  | nil => rfl
  | cons wish wishes ih => rw [List.map_cons, assign, assign, ih]

/-- Wishes for different names that are not in use are all granted. -/
lemma assign_freshOr {wish : α → Option String} {default : String} {wishes : List α}
    (hwish : ∀ a ∈ wishes, ∃ name, wish a = some name ∧ name ≠ "" ∧ name ∉ used)
    (hnodup : (wishes.filterMap wish).Nodup) :
    assign (fun used a => freshOr used (wish a) default) used wishes = wishes.filterMap wish := by
  induction wishes generalizing used with
  | nil => rfl
  | cons a wishes ih =>
    obtain ⟨name, hname, hne, hnew⟩ := hwish a List.mem_cons_self
    have hcons : (a :: wishes).filterMap wish = name :: wishes.filterMap wish :=
      List.filterMap_cons_some hname
    rw [hcons] at hnodup ⊢
    obtain ⟨hfirst, hrest⟩ := List.nodup_cons.1 hnodup
    have hgiven : freshOr used (wish a) default = name := by
      rw [hname, freshOr_some hne, (fresh_spec used name).1 hnew]
    rw [assign, hgiven, ih ?_ hrest]
    intro b hb
    obtain ⟨other, hother, hne, hnew⟩ := hwish b (List.mem_cons_of_mem a hb)
    refine ⟨other, hother, hne, fun hmem => ?_⟩
    rcases List.mem_cons.1 hmem with rfl | hmem
    · exact hfirst (List.mem_filterMap.2 ⟨b, hb, hother⟩)
    · exact hnew hmem

end Michelson.Names
