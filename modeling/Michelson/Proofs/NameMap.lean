/-
# Maps of different names

Inserting under a name that is not there yet only adds a pair.  So the map of pairs with different
names has exactly these pairs (`perm_ofList`), and under every name the value it came with
(`find?_ofList`).
-/
import Mathlib.Tactic
import Michelson.NameMap

namespace Michelson.NameMap

variable {α : Type} {name : String} {value : α} {m pairs : List (String × α)}

lemma mem_of_mem_insert {pair : String × α} (h : pair ∈ insert name value m) :
    pair = (name, value) ∨ pair ∈ m := by
  induction m with
  | nil => exact Or.inl (List.mem_singleton.1 h)
  | cons first m ih =>
    obtain ⟨other, old⟩ := first
    rw [insert] at h
    split at h
    · rcases List.mem_cons.1 h with rfl | hmem
      · exact Or.inl rfl
      · exact Or.inr (List.mem_cons_of_mem _ hmem)
    · split at h
      · exact List.mem_cons.1 h
      · rcases List.mem_cons.1 h with rfl | hmem
        · exact Or.inr List.mem_cons_self
        · exact (ih hmem).imp_right (List.mem_cons_of_mem _)

/-- The map of some pairs has no others, whatever their names are. -/
lemma mem_of_mem_ofList {pair : String × α} (h : pair ∈ ofList pairs) : pair ∈ pairs := by
  have hfold : ∀ (pairs sorted : List (String × α)),
      pair ∈ pairs.foldl (fun sorted p => insert p.1 p.2 sorted) sorted →
        pair ∈ sorted ∨ pair ∈ pairs := by
    intro pairs
    induction pairs with
    | nil => exact fun sorted hmem => Or.inl hmem
    | cons p pairs ih =>
      intro sorted hmem
      rcases ih _ hmem with hinsert | htail
      · rcases mem_of_mem_insert hinsert with rfl | hmem
        · exact Or.inr List.mem_cons_self
        · exact Or.inl hmem
      · exact Or.inr (List.mem_cons_of_mem p htail)
  exact (hfold pairs [] h).resolve_left List.not_mem_nil

lemma perm_insert (h : name ∉ m.map Prod.fst) :
    (insert name value m).Perm ((name, value) :: m) := by
  induction m with
  | nil => exact List.Perm.refl _
  | cons pair m ih =>
    obtain ⟨other, old⟩ := pair
    rw [List.map_cons, List.mem_cons, not_or] at h
    rw [insert, if_neg h.1]
    split
    · exact List.Perm.refl _
    · exact ((ih h.2).cons _).trans (List.Perm.swap _ _ _)

/-- The map of pairs with different names has these pairs and no others. -/
theorem perm_ofList (h : (pairs.map Prod.fst).Nodup) : (ofList pairs).Perm pairs := by
  -- what has been inserted already has none of the names that are still to come
  have hfold : ∀ (pairs sorted : List (String × α)),
      ((sorted ++ pairs).map Prod.fst).Nodup →
        (pairs.foldl (fun sorted p => insert p.1 p.2 sorted) sorted).Perm (sorted ++ pairs) := by
    intro pairs
    induction pairs with
    | nil =>
      intro sorted _
      rw [List.append_nil]
      exact List.Perm.refl _
    | cons p pairs ih =>
      intro sorted hnodup
      have hnew : p.1 ∉ sorted.map Prod.fst := by
        rw [List.map_append, List.map_cons] at hnodup
        exact fun hmem => (List.nodup_middle.1 hnodup).notMem (List.mem_append_left _ hmem)
      have hmove : (insert p.1 p.2 sorted ++ pairs).Perm (sorted ++ p :: pairs) :=
        ((perm_insert hnew).append_right pairs).trans List.perm_middle.symm
      exact (ih _ ((hmove.map Prod.fst).nodup_iff.2 hnodup)).trans hmove
  exact hfold pairs [] h

lemma find?_eq_some_of_mem (hnodup : (m.map Prod.fst).Nodup) (h : (name, value) ∈ m) :
    find? name m = some value := by
  induction m with
  | nil => exact absurd h List.not_mem_nil
  | cons pair m ih =>
    obtain ⟨other, old⟩ := pair
    rw [List.map_cons] at hnodup
    rw [find?, List.lookup_cons]
    rcases List.mem_cons.1 h with heq | hmem
    · cases heq
      rw [beq_self_eq_true]
    · have hne : name ≠ other := by
        rintro rfl
        exact hnodup.notMem (List.mem_map.2 ⟨_, hmem, rfl⟩)
      rw [beq_eq_false_iff_ne.2 hne]
      exact ih hnodup.of_cons hmem

lemma mem_of_find? (h : find? name m = some value) : (name, value) ∈ m := by
  obtain ⟨before, behind, rfl, -⟩ := List.lookup_eq_some_iff.1 h
  exact List.mem_append_right before List.mem_cons_self

lemma isSome_find?_iff : (find? name m).isSome ↔ name ∈ m.map Prod.fst := by
  induction m with
  | nil => simp [find?]
  | cons pair m ih =>
    obtain ⟨other, old⟩ := pair
    rw [find?] at ih
    rw [find?, List.lookup_cons, List.map_cons, List.mem_cons]
    by_cases h : name = other
    · simp [h]
    · simp [h, beq_eq_false_iff_ne.2 h, ih]

/-- What a map has under a name does not depend on the order of its pairs. -/
lemma find?_eq_of_perm (hnodup : (m.map Prod.fst).Nodup) (h : pairs.Perm m) :
    find? name pairs = find? name m := by
  cases hfind : find? name pairs with
  | none =>
    have hnone : ¬ (find? name pairs).isSome := by simp [hfind]
    rw [isSome_find?_iff, (h.map Prod.fst).mem_iff, ← isSome_find?_iff] at hnone
    exact (Option.not_isSome_iff_eq_none.1 hnone).symm
  | some value =>
    exact (find?_eq_some_of_mem hnodup (h.mem_iff.1 (mem_of_find? hfind))).symm

lemma find?_ofList (hnodup : (pairs.map Prod.fst).Nodup) (h : (name, value) ∈ pairs) :
    find? name (ofList pairs) = some value := by
  have hperm := perm_ofList hnodup
  exact find?_eq_some_of_mem ((hperm.map Prod.fst).nodup_iff.2 hnodup) (hperm.mem_iff.2 h)

/-! ### Names that come more than once -/

/-- The pairs in the strict order of their names. -/
def IsSorted (m : NameMap α) : Prop := m.Pairwise fun a b => a.1 < b.1

lemma isSorted_insert (name : String) (value : α) (h : IsSorted m) :
    IsSorted (insert name value m) := by
  induction m with
  | nil => exact List.pairwise_singleton _ _
  | cons pair m ih =>
    obtain ⟨other, old⟩ := pair
    obtain ⟨hfirst, hrest⟩ := List.pairwise_cons.1 h
    rw [insert]
    split
    · next heq =>
      rw [heq]
      exact List.pairwise_cons.2 ⟨hfirst, hrest⟩
    · next hne =>
      split
      · next hlt =>
        refine List.pairwise_cons.2 ⟨fun pair hpair => ?_, h⟩
        rcases List.mem_cons.1 hpair with rfl | hpair
        · exact hlt
        · exact String.lt_trans hlt (hfirst pair hpair)
      · next hlt =>
        refine List.pairwise_cons.2 ⟨fun pair hpair => ?_, ih hrest⟩
        rcases mem_of_mem_insert hpair with rfl | hpair
        · exact Std.lt_of_le_of_ne (String.not_lt.1 hlt) (Ne.symm hne)
        · exact hfirst pair hpair

/-- A map has every name once. -/
lemma nodup_ofList (pairs : List (String × α)) : ((ofList pairs).map Prod.fst).Nodup := by
  have hsorted : IsSorted (ofList pairs) :=
    List.foldlRecOn pairs _ List.Pairwise.nil fun sorted h pair _ =>
      isSorted_insert pair.1 pair.2 h
  refine List.pairwise_map.2 (hsorted.imp fun {a b} hlt heq => ?_)
  rw [heq] at hlt
  exact String.lt_irrefl _ hlt

lemma length_ofList_le (pairs : List (String × α)) : (ofList pairs).length ≤ pairs.length := by
  have hnames : (ofList pairs).map Prod.fst ⊆ pairs.map Prod.fst :=
    List.map_subset _ fun _ => mem_of_mem_ofList
  have hlength := (List.subperm_of_subset (nodup_ofList pairs) hnames).length_le
  rwa [List.length_map, List.length_map] at hlength

/-- A map has as many pairs as it was made of only if they have different names. -/
lemma length_ofList_iff :
    (ofList pairs).length = pairs.length ↔ (pairs.map Prod.fst).Nodup := by
  refine ⟨fun h => ?_, fun h => (perm_ofList h).length_eq⟩
  have hnames : (ofList pairs).map Prod.fst ⊆ pairs.map Prod.fst :=
    List.map_subset _ fun _ => mem_of_mem_ofList
  have hperm := (List.subperm_of_subset (nodup_ofList pairs) hnames).perm_of_length_le
    (by rw [List.length_map, List.length_map, h])
  exact hperm.nodup_iff.1 (nodup_ofList pairs)

end Michelson.NameMap
