/-
# Names that are never given

An entrypoint may have a name that its type does not ask for: the default, or a name with a number
behind it.  Under any other name an entrypoint is found only if its field has this name
(`fieldName?_of_isNeverGiven`), and of several fields of one name the first one keeps it.  So such a
name finds the first position of a parameter type with this field name, whatever else is in the type
(`find?_eq_some_iff_firstNamed`).

`FirstNamed` says which position that is, by the order of positions; it is the first hit in their
list (`firstNamed_iff`).
-/
import Michelson.Proofs.Entrypoint.Listing

namespace Michelson.Entrypoint

open Michelson.Expr Branch

variable {parameter type : Expr} {sides : List Branch} {name : String} {entry : Entrypoint}
  {before after : List Entrypoint}

/-- The position with this field name that comes before all others with it. -/
structure FirstNamed (parameter : Expr) (name : String) (sides : List Branch) (type : Expr) :
    Prop where
  /-- The sides lead to the type through choices. -/
  position : parameter.ChoicePosition sides type
  /-- The type there has the field name. -/
  named : type.fieldName? = some name
  /-- Every other position with the field name comes later. -/
  first : ∀ sides' type', parameter.ChoicePosition sides' type' → type'.fieldName? = some name →
    sides' = sides ∨ Precedes sides sides'

/-- There is one first position at most. -/
lemma FirstNamed.unique {sides' : List Branch} {type' : Expr}
    (h : FirstNamed parameter name sides type) (h' : FirstNamed parameter name sides' type') :
    sides = sides' ∧ type = type' := by
  have hsides : sides = sides' := by
    rcases h.first sides' type' h'.position h'.named with heq | hlater
    · exact heq.symm
    · rcases h'.first sides type h.position h.named with heq | hearlier
      · exact heq
      · exact absurd hearlier hlater.asymm
  subst hsides
  exact ⟨rfl, h.position.type_unique h'.position⟩

/-- The first position with a field name is the first hit in the list of positions. -/
theorem firstNamed_iff : FirstNamed parameter name sides type ↔
    (choicePositions [] parameter).find? (fun p => p.2.fieldName? == some name) =
      some (sides, type) := by
  have hsorted := pairwise_precedes_choicePositions [] parameter
  rw [List.find?_eq_some_iff_append, beq_iff_eq]
  constructor
  · intro h
    obtain ⟨front, back, hsplit⟩ := List.append_of_mem (mem_choicePositions_iff.2 h.position)
    refine ⟨h.named, front, back, hsplit, fun p hp => ?_⟩
    -- what stands before the first position would have to come after it
    rw [hsplit, List.pairwise_append] at hsorted
    have hearlier : Precedes p.1 sides := hsorted.2.2 p hp _ List.mem_cons_self
    have hpos : parameter.ChoicePosition p.1 p.2 :=
      mem_choicePositions_iff.1 (hsplit ▸ List.mem_append_left _ hp)
    simp only [Bool.not_eq_true', beq_eq_false_iff_ne]
    intro hnamed
    rcases h.first p.1 p.2 hpos hnamed with heq | hlater
    · exact not_precedes_self _ (heq ▸ hearlier)
    · exact hearlier.asymm hlater
  · rintro ⟨hnamed, front, back, hsplit, hfront⟩
    rw [hsplit, List.pairwise_append, List.pairwise_cons] at hsorted
    refine ⟨mem_choicePositions_iff.1 (hsplit ▸ by simp), hnamed,
      fun sides' type' hpos hnamed' => ?_⟩
    have hmem := mem_choicePositions_iff.2 hpos
    rw [hsplit, List.mem_append, List.mem_cons] at hmem
    rcases hmem with hmem | heq | hmem
    · exact absurd hnamed' (by simpa using hfront _ hmem)
    · exact .inl (Prod.mk.inj heq).1
    · exact .inr (hsorted.2.1.1 _ hmem)

lemma exists_firstNamed_iff : (∃ sides, FirstNamed parameter name sides type) ↔
    ((choicePositions [] parameter).find? (fun p => p.2.fieldName? == some name)).map Prod.snd =
      some type := by
  simp only [firstNamed_iff, Option.map_eq_some_iff, Prod.exists, exists_eq_right]

/-! ### Names of fields -/

/-- A name that is neither the default nor made of another one by numbering. -/
def IsNeverGiven (name : String) : Prop :=
  name ≠ defaultEntrypoint ∧ ∀ base n, name ≠ Names.numbered base n

/-- A number ends with a digit, so a name that does not is never made by numbering. -/
lemma isNeverGiven_of_last (hne : name ≠ defaultEntrypoint)
    (hlast : name.toList.getLast?.all fun c => !c.isDigit) : IsNeverGiven name := by
  refine ⟨hne, fun base n heq => ?_⟩
  have hdigits : (toString n).toList = Nat.toDigits 10 n := Nat.toList_repr
  obtain ⟨c, hc⟩ := Option.isSome_iff_exists.1
    (List.getLast?_isSome.2 (Nat.toDigits_ne_nil (n := n) (b := 10)))
  rw [heq, Names.numbered, String.toList_append, hdigits,
    List.getLast?_append_of_ne_nil _ Nat.toDigits_ne_nil, hc] at hlast
  have hdigit := Decimal.isDigit_of_mem_toDigits (List.mem_of_getLast? hc)
  simp [hdigit] at hlast

/-- An entrypoint has a name that is never given only from its field. -/
lemma fieldName?_of_isNeverGiven (hmem : entry ∈ ofType parameter)
    (hname : IsNeverGiven entry.name) : entry.type.fieldName? = some entry.name := by
  obtain ⟨before, after, hsplit⟩ := List.append_of_mem hmem
  obtain ⟨hnew, hused⟩ := name_spec hsplit
  have hwanted : entry.name = wanted entry.type := by
    by_cases htaken : wanted entry.type ∈ before.map Entrypoint.name
    · obtain ⟨n, hnumbered, -⟩ := hused htaken
      exact absurd hnumbered (hname.2 _ n)
    · exact hnew htaken
  cases hfield : entry.type.fieldName? with
  | none =>
    rw [wanted, hfield] at hwanted
    exact absurd hwanted hname.1
  | some f => rw [hwanted, wanted, hfield, Option.getD_some]

lemma FirstNamed.isListed (h : FirstNamed parameter name sides type) : isListed type := by
  simp [Entrypoint.isListed, h.named]

lemma exists_firstNamed (hpos : parameter.ChoicePosition sides type)
    (hnamed : type.fieldName? = some name) :
    ∃ sides' type', FirstNamed parameter name sides' type' := by
  have hsome : ((choicePositions [] parameter).find?
      fun p => p.2.fieldName? == some name).isSome :=
    List.find?_isSome.2 ⟨(sides, type), mem_choicePositions_iff.2 hpos, by simp [hnamed]⟩
  obtain ⟨⟨sides', type'⟩, hfind⟩ := Option.isSome_iff_exists.1 hsome
  exact ⟨sides', type', firstNamed_iff.2 hfind⟩

/-- The entrypoint at the first position with a field name that is never given has this name. -/
lemma FirstNamed.name_eq (h : FirstNamed parameter name entry.branch entry.type)
    (hname : IsNeverGiven name) (hmem : entry ∈ ofType parameter) : entry.name = name := by
  obtain ⟨before, after, hsplit⟩ := List.append_of_mem hmem
  have hwanted : wanted entry.type = name := by rw [wanted, h.named, Option.getD_some]
  rw [← hwanted]
  refine (name_spec hsplit).1 fun htaken => ?_
  -- whoever has taken the name has it from its field, and so comes later
  obtain ⟨taker, htaker, heq⟩ := List.mem_map.1 htaken
  rw [hwanted] at heq
  subst heq
  have htakerMem : taker ∈ ofType parameter := hsplit ▸ List.mem_append_left _ htaker
  have hearlier := precedes_of_mem_before hsplit htaker
  rcases h.first _ _ (choicePosition_of_mem htakerMem)
    (fieldName?_of_isNeverGiven htakerMem hname) with hsame | hlater
  · exact not_precedes_self _ (hsame ▸ hearlier)
  · exact hearlier.asymm hlater

/-- A name that is never given finds the first position with this field name. -/
theorem find?_eq_some_iff_firstNamed (hname : IsNeverGiven name) :
    (∃ entry, find? name (ofType parameter) = some entry ∧ entry.branch = sides ∧
      entry.type = type) ↔ FirstNamed parameter name sides type := by
  -- the entrypoint at the first position is the one that is found
  have hfound : ∀ sides type, FirstNamed parameter name sides type →
      ∃ entry, find? name (ofType parameter) = some entry ∧ entry.branch = sides ∧
        entry.type = type := by
    intro sides type h
    obtain ⟨entry, hmem, rfl, rfl⟩ := exists_ofType_iff.2 ⟨h.position, h.isListed⟩
    have hfind := find?_name_eq_some (nodup_map_name parameter) hmem
    rw [h.name_eq hname hmem] at hfind
    exact ⟨entry, hfind, rfl, rfl⟩
  constructor
  · rintro ⟨entry, hfind, rfl, rfl⟩
    have hmem : entry ∈ ofType parameter := List.mem_of_find?_eq_some hfind
    have hentry : entry.name = name := by simpa using List.find?_some hfind
    subst hentry
    obtain ⟨sides', type', hfirst⟩ :=
      exists_firstNamed (choicePosition_of_mem hmem) (fieldName?_of_isNeverGiven hmem hname)
    obtain ⟨entry', hfind', rfl, rfl⟩ := hfound sides' type' hfirst
    obtain rfl : entry = entry' := Option.some.inj (hfind.symm.trans hfind')
    exact hfirst
  · exact hfound sides type

end Michelson.Entrypoint
