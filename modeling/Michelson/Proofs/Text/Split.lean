/-
# Splitting and joining undo each other

Joining the pieces of a text gives the text back, and splitting a joined list gives the list back
as long as there is a piece and none of them holds the separator.  The second condition is what
splitting itself guarantees.
-/
import Mathlib.Tactic
import Michelson.Text.Split

namespace Michelson.Text

variable {sep : Char}

lemma splitChars_ne_nil (sep : Char) (cs : List Char) : splitChars sep cs ≠ [] := by
  cases cs with
  | nil => simp [splitChars]
  | cons c cs =>
    rw [splitChars]
    split
    · simp
    · split <;> simp

lemma splitChars_cons_of_ne {c : Char} {cs : List Char} (hc : c ≠ sep) {piece : List Char}
    {pieces : List (List Char)} (h : splitChars sep cs = piece :: pieces) :
    splitChars sep (c :: cs) = (c :: piece) :: pieces := by
  rw [splitChars, if_neg hc, h]

lemma not_mem_of_mem_splitChars {cs piece : List Char} (h : piece ∈ splitChars sep cs) :
    sep ∉ piece := by
  induction cs generalizing piece with
  | nil =>
    rw [splitChars, List.mem_singleton] at h
    simp [h]
  | cons c cs ih =>
    by_cases hc : c = sep
    · rw [splitChars, if_pos hc] at h
      rcases List.mem_cons.1 h with rfl | h
      · exact List.not_mem_nil
      · exact ih h
    · obtain ⟨first, pieces, hcs⟩ := List.exists_cons_of_ne_nil (splitChars_ne_nil sep cs)
      rw [splitChars_cons_of_ne hc hcs] at h
      rcases List.mem_cons.1 h with rfl | h
      · have hfirst : sep ∉ first := ih (hcs ▸ List.mem_cons_self)
        simp [hfirst, Ne.symm hc]
      · exact ih (hcs ▸ List.mem_cons_of_mem first h)

lemma joinChars_cons_cons (c : Char) (piece : List Char) (pieces : List (List Char)) :
    joinChars sep ((c :: piece) :: pieces) = c :: joinChars sep (piece :: pieces) := by
  cases pieces <;> rfl

lemma joinChars_nil_cons {pieces : List (List Char)} (h : pieces ≠ []) :
    joinChars sep ([] :: pieces) = sep :: joinChars sep pieces := by
  cases pieces with
  | nil => exact absurd rfl h
  | cons piece pieces => rfl

lemma joinChars_splitChars (cs : List Char) : joinChars sep (splitChars sep cs) = cs := by
  induction cs with
  | nil => rfl
  | cons c cs ih =>
    by_cases hc : c = sep
    · rw [splitChars, if_pos hc, joinChars_nil_cons (splitChars_ne_nil sep cs), ih, hc]
    · obtain ⟨first, pieces, hcs⟩ := List.exists_cons_of_ne_nil (splitChars_ne_nil sep cs)
      rw [splitChars_cons_of_ne hc hcs, joinChars_cons_cons, ← hcs, ih]

lemma splitChars_append {piece : List Char} (h : sep ∉ piece) (cs : List Char) :
    splitChars sep (piece ++ sep :: cs) = piece :: splitChars sep cs := by
  induction piece with
  | nil => rw [List.nil_append, splitChars, if_pos rfl]
  | cons c piece ih =>
    rw [List.mem_cons, not_or] at h
    rw [List.cons_append, splitChars_cons_of_ne (Ne.symm h.1) (ih h.2)]

/-- The pieces of two texts with a separator between them are those of both. -/
lemma splitChars_append_cons (cs cs' : List Char) :
    splitChars sep (cs ++ sep :: cs') = splitChars sep cs ++ splitChars sep cs' := by
  induction cs with
  | nil => simp [splitChars]
  | cons c cs ih =>
    rw [List.cons_append]
    by_cases hc : c = sep
    · simp [splitChars, hc, ih]
    · obtain ⟨first, pieces, hcs⟩ := List.exists_cons_of_ne_nil (splitChars_ne_nil sep cs)
      rw [hcs, List.cons_append] at ih
      rw [splitChars_cons_of_ne hc ih, splitChars_cons_of_ne hc hcs, List.cons_append]

lemma splitChars_of_not_mem {piece : List Char} (h : sep ∉ piece) :
    splitChars sep piece = [piece] := by
  induction piece with
  | nil => rfl
  | cons c piece ih =>
    rw [List.mem_cons, not_or] at h
    rw [splitChars_cons_of_ne (Ne.symm h.1) (ih h.2)]

lemma splitChars_joinChars {pieces : List (List Char)} (hne : pieces ≠ [])
    (h : ∀ piece ∈ pieces, sep ∉ piece) : splitChars sep (joinChars sep pieces) = pieces := by
  induction pieces with
  | nil => exact absurd rfl hne
  | cons piece pieces ih =>
    have hpiece := h piece List.mem_cons_self
    cases pieces with
    | nil => exact splitChars_of_not_mem hpiece
    | cons next pieces =>
      have htail := ih (List.cons_ne_nil next pieces) fun p hp => h p (List.mem_cons_of_mem _ hp)
      rw [joinChars, splitChars_append hpiece, htail]
      simp

/-! ### Texts -/

lemma not_mem_of_mem_split {s piece : String} (h : piece ∈ split sep s) : sep ∉ piece.toList := by
  obtain ⟨cs, hcs, rfl⟩ := List.mem_map.1 h
  rw [String.toList_ofList]
  exact not_mem_of_mem_splitChars hcs

/-- Joining the pieces of a text gives the text back. -/
lemma join_split (s : String) : join sep (split sep s) = s := by
  have h (css : List (List Char)) : (css.map String.ofList).map String.toList = css := by
    simp [List.map_map, Function.comp_def]
  rw [join, split, h, joinChars_splitChars, String.ofList_toList]

/-- Splitting joined pieces gives the pieces back. -/
lemma split_join {pieces : List String} (hne : pieces ≠ [])
    (h : ∀ piece ∈ pieces, sep ∉ piece.toList) : split sep (join sep pieces) = pieces := by
  have hchars : ∀ piece ∈ pieces.map String.toList, sep ∉ piece := by
    intro cs hcs
    obtain ⟨piece, hpiece, rfl⟩ := List.mem_map.1 hcs
    exact h piece hpiece
  have hne' : pieces.map String.toList ≠ [] := fun hnil => hne (List.map_eq_nil_iff.1 hnil)
  rw [split, join, String.toList_ofList, splitChars_joinChars hne' hchars]
  simp [List.map_map, Function.comp_def]

lemma join_ne_empty {pieces : List String} (hne : pieces ≠ []) (h : "" ∉ pieces) :
    join sep pieces ≠ "" := by
  cases pieces with
  | nil => exact absurd rfl hne
  | cons piece pieces =>
    intro hjoin
    have hpiece : piece ≠ "" := fun hp => h (hp ▸ List.mem_cons_self)
    have hchars : joinChars sep (piece.toList :: pieces.map String.toList) = [] := by
      have := congrArg String.toList hjoin
      simpa [join] using this
    have hnil : piece.toList = [] := by
      cases hp : pieces.map String.toList with
      | nil => rwa [hp, joinChars] at hchars
      | cons next rest => simp [hp, joinChars] at hchars
    exact hpiece (String.toList_eq_nil_iff.1 hnil)

/-! ### The first piece -/

lemma takeWhile_ne_append {cs : List Char} (h : sep ∉ cs) (rest : List Char) :
    (cs ++ rest).takeWhile (· ≠ sep) = cs ++ rest.takeWhile (· ≠ sep) :=
  List.takeWhile_append_of_pos fun _ hc => decide_eq_true fun heq => h (heq ▸ hc)

lemma beforeFirst_of_not_mem {s : String} (h : sep ∉ s.toList) : beforeFirst sep s = s := by
  have hchars := takeWhile_ne_append h []
  rw [List.append_nil, List.takeWhile_nil, List.append_nil] at hchars
  rw [beforeFirst, hchars, String.ofList_toList]

/-- What is behind a separator does not count, and there may be more separators in it. -/
lemma beforeFirst_append {s : String} (h : sep ∉ s.toList) (rest : String) :
    beforeFirst sep (s ++ String.singleton sep ++ rest) = s := by
  have hchars : (s ++ String.singleton sep ++ rest).toList = s.toList ++ sep :: rest.toList := by
    rw [String.toList_append, String.toList_append, String.toList_singleton, List.append_assoc]
    rfl
  rw [beforeFirst, hchars, takeWhile_ne_append h, List.takeWhile_cons_of_neg (by simp),
    List.append_nil, String.ofList_toList]

end Michelson.Text
