/-
# Names of fields and names that are given

The names of entrypoints without a field name are taken from the same names as those of fields: an
unnamed leaf is given the default, and a name that is taken is given a number.  When no two
positions have one field name, an entrypoint has lost the name of its field only to such a given
name, and these are all made of the default by numbering (`name_cases`).  So the name of a field
leads to its position unless it is the default or made of it, and also when no unnamed leaf stands
before the position.

The main statement is `leadsTo_of_fieldName`.  What is left out of it does fail
(`not_leadsTo_of_unnamed`): an unnamed leaf takes the default from a field of this name behind it.
-/
import Michelson.Proofs.Entrypoint.Listing

namespace Michelson.Entrypoint

open Michelson.Expr Branch

variable {parameter type : Expr} {sides : List Branch} {entry e : Entrypoint}
  {before after : List Entrypoint} {f : String}

/-- The default, and the names that numbering makes of it. -/
inductive IsGiven : String → Prop
  | default : IsGiven defaultEntrypoint
  | numbered {name : String} (n : Nat) : IsGiven name → IsGiven (Names.numbered name n)

/-- A given name starts with the default. -/
lemma IsGiven.exists_append {name : String} (h : IsGiven name) :
    ∃ rest, name = defaultEntrypoint ++ rest := by
  induction h with
  | default => exact ⟨"", (String.append_empty).symm⟩
  | numbered n _ ih =>
    obtain ⟨rest, rfl⟩ := ih
    refine ⟨rest ++ "_" ++ toString n, ?_⟩
    rw [Names.numbered, String.append_assoc, String.append_assoc, String.append_assoc]

/-- No two positions of a parameter type have the same field name. -/
def HasDistinctFields (parameter : Expr) : Prop :=
  ∀ f sides type sides' type', parameter.ChoicePosition sides type →
    parameter.ChoicePosition sides' type' → type.fieldName? = some f →
      type'.fieldName? = some f → sides = sides'

lemma hasDistinctFields_iff : HasDistinctFields parameter ↔
    ∀ p ∈ choicePositions [] parameter, ∀ q ∈ choicePositions [] parameter,
      p.2.fieldName?.isSome → p.2.fieldName? = q.2.fieldName? → p.1 = q.1 := by
  constructor
  · rintro h ⟨sides, type⟩ hp ⟨sides', type'⟩ hq hsome heq
    obtain ⟨f, hf⟩ := Option.isSome_iff_exists.1 hsome
    exact h f sides type sides' type' (mem_choicePositions_iff.1 hp) (mem_choicePositions_iff.1 hq)
      hf (heq ▸ hf)
  · intro h f sides type sides' type' hpos hpos' hf hf'
    exact h (sides, type) (mem_choicePositions_iff.2 hpos) (sides', type')
      (mem_choicePositions_iff.2 hpos') (by simp [hf]) (hf.trans hf'.symm)

instance (parameter : Expr) : Decidable (HasDistinctFields parameter) :=
  decidable_of_iff _ hasDistinctFields_iff.symm

/-- A leaf without a field name stands before these sides. -/
def HasUnnamedBefore (parameter : Expr) (sides : List Branch) : Prop :=
  ∃ sides' leaf, parameter.ChoicePosition sides' leaf ∧ Precedes sides' sides ∧
    ¬ leaf.isChoice ∧ leaf.fieldName? = none

/-- The name is that of the entrypoint at these sides. -/
def LeadsTo (parameter : Expr) (name : String) (sides : List Branch) : Prop :=
  ∃ entry ∈ ofType parameter, entry.branch = sides ∧
    find? name (ofType parameter) = some entry ∧ pathTo? parameter name = some entry.path

/-! ### Given names -/

/-- An unnamed leaf is given the default, or the default with a number. -/
lemma isGiven_of_unnamed (h : ofType parameter = before ++ entry :: after)
    (hnone : entry.type.fieldName? = none) : IsGiven entry.name := by
  have hwanted : wanted entry.type = defaultEntrypoint := by rw [wanted, hnone, Option.getD_none]
  obtain ⟨hnew, hused⟩ := name_spec h
  rw [hwanted] at hnew hused
  by_cases htaken : defaultEntrypoint ∈ before.map name
  · obtain ⟨n, hname, -⟩ := hused htaken
    exact hname ▸ .numbered n .default
  · exact hnew htaken ▸ .default

/-- A field keeps its name unless it is taken, and then gets a number. -/
lemma name_of_fieldName (h : ofType parameter = before ++ entry :: after)
    (hf : entry.type.fieldName? = some f) :
    (f ∉ before.map name → entry.name = f) ∧
      (f ∈ before.map name → ∃ n, entry.name = Names.numbered f n) := by
  have hwanted : wanted entry.type = f := by rw [wanted, hf, Option.getD_some]
  obtain ⟨hnew, hused⟩ := name_spec h
  rw [hwanted] at hnew hused
  refine ⟨hnew, fun htaken => ?_⟩
  obtain ⟨n, hname, -⟩ := hused htaken
  exact ⟨n, hname⟩

/-- No entrypoint before another one has a field of the same name. -/
lemma fieldName?_ne_of_mem_before (hdistinct : HasDistinctFields parameter)
    (h : ofType parameter = before ++ entry :: after) (hf : entry.type.fieldName? = some f)
    (he : e ∈ before) : e.type.fieldName? ≠ some f := by
  intro hown
  have hpos : parameter.ChoicePosition e.branch e.type :=
    choicePosition_of_mem (h ▸ List.mem_append_left _ he)
  have hpos' : parameter.ChoicePosition entry.branch entry.type :=
    choicePosition_of_mem (h ▸ List.mem_append_right _ List.mem_cons_self)
  have hbefore := precedes_of_mem_before h he
  rw [hdistinct _ _ _ _ _ hpos hpos' hown hf] at hbefore
  exact not_precedes_self _ hbefore

/-- An entrypoint has the name of its field or a given one, and then it is unnamed itself or has an
unnamed one before it. -/
lemma name_cases (hdistinct : HasDistinctFields parameter)
    (h : ofType parameter = before ++ after) (he : e ∈ before) :
    e.type.fieldName? = some e.name ∨
      IsGiven e.name ∧ ∃ unnamed ∈ before, unnamed.type.fieldName? = none := by
  induction before using List.reverseRecOn generalizing after e with
  | nil => exact absurd he List.not_mem_nil
  | append_singleton before last ih =>
    have hsplit : ofType parameter = before ++ last :: after := by simpa using h
    have hmore : ∀ a ∈ before, a ∈ before ++ [last] := fun a ha => List.mem_append_left _ ha
    rcases List.mem_append.1 he with he | hlast
    · rcases ih hsplit he with hown | ⟨hgiven, unnamed, hunnamed, hnone⟩
      · exact .inl hown
      · exact .inr ⟨hgiven, unnamed, hmore _ hunnamed, hnone⟩
    · obtain rfl := List.mem_singleton.1 hlast
      cases hfield : e.type.fieldName? with
      | none => exact .inr ⟨isGiven_of_unnamed hsplit hfield, e, he, hfield⟩
      | some g =>
        obtain ⟨hnew, hused⟩ := name_of_fieldName hsplit hfield
        by_cases htaken : g ∈ before.map name
        · -- the entrypoint that took the name has no field of this name, so the name was given
          obtain ⟨n, hname⟩ := hused htaken
          obtain ⟨taker, htaker, rfl⟩ := List.mem_map.1 htaken
          obtain ⟨hgiven, unnamed, hunnamed, hnone⟩ := (ih hsplit htaker).resolve_left
            (fieldName?_ne_of_mem_before hdistinct hsplit hfield htaker)
          exact .inr ⟨hname ▸ .numbered n hgiven, unnamed, hmore _ hunnamed, hnone⟩
        · exact .inl (by rw [hnew htaken])

/-! ### Unnamed leaves and lost names -/

/-- The leaves without a field name before an entrypoint are the entrypoints without one before it.
-/
lemma hasUnnamedBefore_iff (h : ofType parameter = before ++ entry :: after) :
    HasUnnamedBefore parameter entry.branch ↔ ∃ e ∈ before, e.type.fieldName? = none := by
  constructor
  · rintro ⟨sides, leaf, hpos, hbefore, hleaf, hnone⟩
    have hlisted : isListed leaf := by simp [isListed, hleaf]
    obtain ⟨e, hmem, rfl, rfl⟩ := exists_ofType_iff.2 ⟨hpos, hlisted⟩
    refine ⟨e, ?_, hnone⟩
    -- from the entrypoint on, the list has nothing that stands before it
    have hsorted := pairwise_precedes_ofType parameter
    rw [h, List.pairwise_append, List.pairwise_cons] at hsorted
    rw [h, List.mem_append, List.mem_cons] at hmem
    rcases hmem with hmem | rfl | hmem
    · exact hmem
    · exact absurd hbefore (not_precedes_self _)
    · exact absurd hbefore (hsorted.2.1.1 e hmem).asymm
  · rintro ⟨e, he, hnone⟩
    have hmem : e ∈ ofType parameter := h ▸ List.mem_append_left _ he
    obtain ⟨hpos, hlisted⟩ := exists_ofType_iff.1 ⟨e, hmem, rfl, rfl⟩
    refine ⟨e.branch, e.type, hpos, precedes_of_mem_before h he, ?_, hnone⟩
    simpa [isListed, hnone] using hlisted

/-- As soon as there is an entrypoint without a field name, the default is in use. -/
lemma default_mem_of_unnamed (h : ofType parameter = before ++ after) (he : e ∈ before)
    (hnone : e.type.fieldName? = none) : defaultEntrypoint ∈ before.map name := by
  obtain ⟨front, back, rfl⟩ := List.append_of_mem he
  have hsplit : ofType parameter = front ++ e :: (back ++ after) := by simpa using h
  have hnew := (name_spec hsplit).1
  rw [wanted, hnone, Option.getD_none] at hnew
  rw [List.map_append, List.map_cons, List.mem_append, List.mem_cons]
  by_cases htaken : defaultEntrypoint ∈ front.map name
  · exact .inl htaken
  · exact .inr (.inl (hnew htaken).symm)

/-- The name of a field leads to its entrypoint when no entrypoint before it has this name. -/
lemma leadsTo_iff (h : ofType parameter = before ++ entry :: after)
    (hf : entry.type.fieldName? = some f) :
    LeadsTo parameter f entry.branch ↔ f ∉ before.map name := by
  have hmem : entry ∈ ofType parameter := h ▸ List.mem_append_right _ List.mem_cons_self
  constructor
  · rintro ⟨found, hfound, hbranch, hfind, -⟩ htaken
    -- the list is searched from the front, so what is found stands before the entrypoint
    obtain ⟨taker, htaker, hname⟩ := List.mem_map.1 htaken
    have hfirst := find?_name_eq_some (nodup_map_name parameter)
      (h ▸ List.mem_append_left _ htaker : taker ∈ ofType parameter)
    rw [hname, hfind, Option.some.injEq] at hfirst
    subst hfirst
    exact not_precedes_self _ (hbranch ▸ precedes_of_mem_before h htaker)
  · intro hnew
    have hname := (name_of_fieldName h hf).1 hnew
    have hfind := find?_name_eq_some (nodup_map_name parameter) hmem
    rw [hname] at hfind
    exact ⟨entry, hmem, rfl, hfind, by rw [pathTo?, hfind, Option.map_some]⟩

/-- When no two positions have one field name, the name of a field leads to its position if it is
neither the default nor made of the default by numbering, and if no unnamed leaf stands before the
position.  For the default the second condition is needed: it does not lead to a field of this name
behind an unnamed leaf. -/
theorem leadsTo_of_fieldName (hdistinct : HasDistinctFields parameter)
    (hpos : parameter.ChoicePosition sides type) (hf : type.fieldName? = some f) :
    (¬ IsGiven f → LeadsTo parameter f sides) ∧
      (¬ HasUnnamedBefore parameter sides → LeadsTo parameter f sides) ∧
      (f = "default" → HasUnnamedBefore parameter sides → ¬ LeadsTo parameter f sides) := by
  have hlisted : isListed type := by simp [isListed, hf]
  obtain ⟨entry, hmem, rfl, rfl⟩ := exists_ofType_iff.2 ⟨hpos, hlisted⟩
  obtain ⟨before, after, h⟩ := List.append_of_mem hmem
  rw [leadsTo_iff h hf, hasUnnamedBefore_iff h]
  -- an entrypoint before this one has its name only when the name is given
  have hgiven : f ∈ before.map name → IsGiven f ∧ ∃ e ∈ before, e.type.fieldName? = none := by
    intro htaken
    obtain ⟨taker, htaker, rfl⟩ := List.mem_map.1 htaken
    exact (name_cases hdistinct h htaker).resolve_left
      (fieldName?_ne_of_mem_before hdistinct h hf htaker)
  refine ⟨fun hno htaken => hno (hgiven htaken).1, fun hno htaken => hno (hgiven htaken).2, ?_⟩
  rintro rfl ⟨e, he, hnone⟩ hnew
  exact hnew (default_mem_of_unnamed h he hnone)

/-- A field of the name `default` with no leaf before it, and one of the name `pay` behind an
unnamed leaf. -/
theorem leadsTo_of_fieldName_pay :
    let default := app (.type .nat) [] ["%default"] false false
    let pay := app (.type .unit) [] ["%pay"] false false
    let parameter := type2 .or default (type2 .or (type0 .string) pay)
    HasDistinctFields parameter ∧ parameter.ChoicePosition [.right, .right] pay ∧
      LeadsTo parameter "default" [.left] ∧ LeadsTo parameter "pay" [.right, .right] := by
  intro default pay parameter
  have hdistinct : HasDistinctFields parameter := by decide +kernel
  have hpay : parameter.ChoicePosition [.right, .right] pay := .right (.right .root)
  have hlist : ofType parameter = [] ++ ⟨0, "default", [.left], default⟩ ::
      [⟨1, "default_0", [.right, .left], type0 .string⟩,
        ⟨2, "pay", [.right, .right], pay⟩] := by cbv
  have hfirst : ¬ HasUnnamedBefore parameter [.left] := by
    rw [hasUnnamedBefore_iff hlist]
    simp
  have hgiven : ¬ IsGiven "pay" := by
    intro h
    obtain ⟨rest, hrest⟩ := h.exists_append
    have hlength := congrArg String.length hrest
    rw [String.length_append] at hlength
    have hdefault : defaultEntrypoint.length = 7 := by decide
    have hshort : "pay".length = 3 := by decide
    omega
  exact ⟨hdistinct, hpay, (leadsTo_of_fieldName hdistinct (.left .root) (by decide)).2.1 hfirst,
    (leadsTo_of_fieldName hdistinct hpay (by decide)).1 hgiven⟩

/-- A leaf without a name before a field of the name `default`: the default leads to the leaf and
not to the field. -/
theorem not_leadsTo_of_unnamed :
    let declared := app (.type .string) [] ["%default"] false false
    let parameter := type2 .or (type0 .nat) declared
    HasDistinctFields parameter ∧ parameter.ChoicePosition [.right] declared ∧
      declared.fieldName? = some "default" ∧ ¬ LeadsTo parameter "default" [.right] ∧
      pathTo? parameter "default" = some "L" := by
  intro declared parameter
  have hlist : ofType parameter = [⟨0, "default", [.left], type0 .nat⟩] ++
      ⟨1, "default_0", [.right], declared⟩ :: [] := by cbv
  refine ⟨by decide +kernel, .right .root, by decide, ?_, by cbv⟩
  rw [leadsTo_iff hlist (by decide : declared.fieldName? = some "default")]
  simp

end Michelson.Entrypoint
