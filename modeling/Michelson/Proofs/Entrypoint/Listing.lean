/-
# The entrypoints of a parameter type

The entrypoints are the listed positions of a parameter type with a number and a name each: what is
said about positions in `Positions` and about names in `Names` is put together here.  A position,
its number and its name stay beside one another because the lists that they come from have the same
length (`map_place_ofType`, `map_name_ofType`), and the names in use when an entrypoint gets its
name are those of the entrypoints before it (`name_eq_fresh`).

The main statement is `listing_ofType`.
-/
import Michelson.Proofs.Entrypoint.Positions
import Michelson.Proofs.Names

namespace Michelson.Entrypoint

open Michelson.Expr

variable {parameter type : Expr} {sides : List Branch} {entry : Entrypoint}
  {entrypoints before after : List Entrypoint}

/-- The positions of a parameter type that are entrypoints. -/
def listed (parameter : Expr) : List (List Branch × Expr) :=
  (parameter.choicePositions []).filter fun p => isListed p.2

/-- The name that an entrypoint of a type is given when it is new. -/
def wanted (type : Expr) : String := type.fieldName?.getD defaultEntrypoint

/-- Where an entrypoint is, and its type. -/
def place (e : Entrypoint) : List Branch × Expr := (e.branch, e.type)

/-! ### Positions, numbers and names -/

/-- The names that are given to positions in turn. -/
def namesOf (positions : List (List Branch × Expr)) : List String :=
  Names.assign (fun used p => Names.fresh used (wanted p.2)) [] positions

lemma ofType_eq (parameter : Expr) :
    ofType parameter = ((listed parameter).zip (namesOf (listed parameter))).mapIdx
      fun id (p, name) => ⟨id, name, p.1, p.2⟩ := rfl

lemma length_namesOf (positions : List (List Branch × Expr)) :
    (namesOf positions).length = positions.length :=
  Names.length_assign _ _ _

lemma length_ofType (parameter : Expr) :
    (ofType parameter).length = (listed parameter).length := by
  rw [ofType_eq, List.length_mapIdx, List.length_zip, length_namesOf, Nat.min_self]

lemma map_place_ofType (parameter : Expr) : (ofType parameter).map place = listed parameter := by
  refine List.ext_getElem (by rw [List.length_map, length_ofType]) fun i _ _ => ?_
  simp [ofType_eq, place]

lemma map_name_ofType (parameter : Expr) :
    (ofType parameter).map name = namesOf (listed parameter) := by
  refine List.ext_getElem ?_ fun i _ _ => ?_
  · rw [List.length_map, length_ofType, length_namesOf]
  · simp [ofType_eq]

lemma id_eq_length (h : ofType parameter = before ++ entry :: after) :
    entry.id = before.length := by
  have hentry : (ofType parameter)[before.length]? = some entry := by
    rw [h, List.getElem?_append_right (Nat.le_refl _), Nat.sub_self, List.getElem?_cons_zero]
  rw [ofType_eq, List.getElem?_mapIdx, Option.map_eq_some_iff] at hentry
  obtain ⟨pair, -, rfl⟩ := hentry
  rfl

/-- An entrypoint is named when the names of the entrypoints before it are in use. -/
lemma name_eq_fresh (h : ofType parameter = before ++ entry :: after) :
    entry.name = Names.fresh (before.map name).reverse (wanted entry.type) := by
  have hplaces := map_place_ofType parameter
  have hnames := map_name_ofType parameter
  rw [h, List.map_append, List.map_cons] at hplaces hnames
  rw [← hplaces, namesOf, Names.assign_append, Names.assign, List.append_nil] at hnames
  have hlength : (before.map name).length = (before.map place).length := by
    rw [List.length_map, List.length_map]
  obtain ⟨hbefore, hrest⟩ := List.append_inj hnames (by rw [Names.length_assign, hlength])
  rw [← hbefore] at hrest
  exact (List.cons.inj hrest).1

/-- An entrypoint has the name that it asks for when no entrypoint before it has this name, and
otherwise this name with the smallest number that no entrypoint before it has. -/
lemma name_spec (h : ofType parameter = before ++ entry :: after) :
    (wanted entry.type ∉ before.map name → entry.name = wanted entry.type) ∧
      (wanted entry.type ∈ before.map name → ∃ n,
        entry.name = Names.numbered (wanted entry.type) n ∧ entry.name ∉ before.map name ∧
          ∀ m < n, Names.numbered (wanted entry.type) m ∈ before.map name) := by
  obtain ⟨hnew, hused⟩ := Names.fresh_spec (before.map name).reverse (wanted entry.type)
  rw [← name_eq_fresh h] at hnew hused
  simp only [List.mem_reverse] at hnew hused
  refine ⟨hnew, fun htaken => ?_⟩
  obtain ⟨n, hname, hfree, hmin⟩ := hused htaken
  exact ⟨n, hname, hname ▸ hfree, hmin⟩

/-! ### What is listed -/

lemma isListed_iff :
    isListed type ↔ ¬ (type.applies (.type .or) ∧ type.args.length = 2) ∨
      ∃ f, f ≠ "" ∧ type.fieldName? = some f := by
  have hfield : type.fieldName?.isSome ↔ ∃ f, f ≠ "" ∧ type.fieldName? = some f := by
    rw [Option.isSome_iff_exists]
    refine exists_congr fun f => (and_iff_right_of_imp fun h => ?_).symm
    simpa using (Option.filter_eq_some_iff.1 h).2
  rw [← hfield, isListed, isChoice]
  simp only [Bool.or_eq_true, Bool.not_eq_true', Bool.and_eq_false_iff, beq_eq_false_iff_ne,
    not_and_or, Bool.not_eq_true]

lemma mem_listed_iff :
    (sides, type) ∈ listed parameter ↔ parameter.ChoicePosition sides type ∧ isListed type := by
  rw [listed, List.mem_filter, mem_choicePositions_iff]

/-- The entrypoints are at the listed positions. -/
lemma exists_ofType_iff :
    (∃ entry ∈ ofType parameter, entry.branch = sides ∧ entry.type = type) ↔
      parameter.ChoicePosition sides type ∧ isListed type := by
  rw [← mem_listed_iff, ← map_place_ofType, List.mem_map]
  simp only [place, Prod.mk.injEq]

lemma choicePosition_of_mem (h : entry ∈ ofType parameter) :
    parameter.ChoicePosition entry.branch entry.type :=
  (exists_ofType_iff.1 ⟨entry, h, rfl, rfl⟩).1

/-- The entrypoints are in the order of their positions. -/
lemma pairwise_precedes_ofType (parameter : Expr) :
    (ofType parameter).Pairwise fun a b => Branch.Precedes a.branch b.branch := by
  have hplaces : ((ofType parameter).map place).Pairwise fun p q => Branch.Precedes p.1 q.1 := by
    rw [map_place_ofType]
    exact (pairwise_precedes_choicePositions [] parameter).filter _
  rwa [List.pairwise_map] at hplaces

lemma precedes_of_mem_before (h : ofType parameter = before ++ entry :: after) {e : Entrypoint}
    (he : e ∈ before) : Branch.Precedes e.branch entry.branch := by
  have hsorted := pairwise_precedes_ofType parameter
  rw [h, List.pairwise_append] at hsorted
  exact hsorted.2.2 e he entry List.mem_cons_self

/-- No position is listed twice. -/
lemma nodup_map_branch (parameter : Expr) : ((ofType parameter).map branch).Nodup := by
  refine List.pairwise_map.2 ((pairwise_precedes_ofType parameter).imp fun h heq => ?_)
  rw [heq] at h
  exact Branch.not_precedes_self _ h

lemma nodup_map_name (parameter : Expr) : ((ofType parameter).map name).Nodup := by
  rw [map_name_ofType]
  exact Names.nodup_assign (fun used p => Names.fresh_not_mem used _) _ _

/-! ### Looking up names -/

/-- What is looked for is found when nothing else fits. -/
lemma find?_eq_some_of_unique {α : Type} {p : α → Bool} {l : List α} {a : α} (h : a ∈ l)
    (hp : p a) (hunique : ∀ b ∈ l, p b → b = a) : l.find? p = some a := by
  cases hfind : l.find? p with
  | none => exact absurd hp (List.find?_eq_none.1 hfind a h)
  | some b => rw [hunique b (List.mem_of_find?_eq_some hfind) (List.find?_some hfind)]

lemma find?_name_eq_some (hnodup : (entrypoints.map name).Nodup) (h : entry ∈ entrypoints) :
    find? entry.name entrypoints = some entry :=
  find?_eq_some_of_unique h (beq_self_eq_true _) fun _ hb heq =>
    List.inj_on_of_nodup_map hnodup hb h (eq_of_beq heq)

lemma find?_eq_none {n : String} (h : n ∉ entrypoints.map name) : find? n entrypoints = none :=
  List.find?_eq_none.2 fun e he heq => h (List.mem_map.2 ⟨e, he, eq_of_beq heq⟩)

/-- The entrypoints of a parameter type are its positions other than unnamed choices, each once,
from the root down and left before right.  The position in the list is the number of an entrypoint,
and its sides lead from the root to its type.  Its name is that of the field, or the default, when
no entrypoint before it has this name, and otherwise this name with the smallest number that no
entrypoint before it has.  No two entrypoints have one name; under its name each is found, and its
path with it, and under any other name there is nothing. -/
theorem listing_ofType (parameter : Expr) :
    (∀ sides type, (∃ entry ∈ ofType parameter, entry.branch = sides ∧ entry.type = type) ↔
      parameter.ChoicePosition sides type ∧
        (¬ (type.applies (.type .or) ∧ type.args.length = 2) ∨
          ∃ f, f ≠ "" ∧ type.fieldName? = some f)) ∧
      ((ofType parameter).Pairwise fun a b => Branch.Precedes a.branch b.branch) ∧
      ((ofType parameter).map branch).Nodup ∧
      (∀ before entry after, ofType parameter = before ++ entry :: after →
        entry.id = before.length ∧ parameter.follow? entry.branch = some entry.type ∧
          let wanted := entry.type.fieldName?.getD "default"
          (wanted ∉ before.map name → entry.name = wanted) ∧
            (wanted ∈ before.map name → ∃ n : Nat, entry.name = wanted ++ "_" ++ toString n ∧
              entry.name ∉ before.map name ∧
              ∀ m < n, wanted ++ "_" ++ toString m ∈ before.map name)) ∧
      ((ofType parameter).map name).Nodup ∧
      (∀ entry ∈ ofType parameter, find? entry.name (ofType parameter) = some entry ∧
        pathTo? parameter entry.name = some entry.path) ∧
      ∀ n, n ∉ (ofType parameter).map name →
        find? n (ofType parameter) = none ∧ pathTo? parameter n = none := by
  refine ⟨fun sides type => ?_, pairwise_precedes_ofType parameter, nodup_map_branch parameter,
    fun before entry after h => ⟨id_eq_length h, ?_, ?_⟩, nodup_map_name parameter,
    fun entry h => ?_, fun n h => ?_⟩
  · rw [exists_ofType_iff, isListed_iff]
  · exact (choicePosition_of_mem (h ▸ by simp)).follow?_eq
  · exact name_spec h
  · have hfind := find?_name_eq_some (nodup_map_name parameter) h
    exact ⟨hfind, by rw [pathTo?, hfind, Option.map_some]⟩
  · have hfind := find?_eq_none h
    exact ⟨hfind, by rw [pathTo?, hfind, Option.map_none]⟩

/-- A named choice of two types and an unnamed one: the second field `b` and the second leaf without
a name of its own get numbers, and the unnamed choices are no entrypoints. -/
theorem listing_ofType_numbers :
    let leaf (t : TypeConstructor) (annots : List String) : Expr :=
      app (.type t) [] annots false false
    let named := app (.type .or) [leaf .nat ["%b"], leaf .unit []] ["%a"] false false
    let parameter := type2 .or named (type2 .or (leaf .string ["@x", "%b"]) (leaf .bytes ["%"]))
    ofType parameter = [⟨0, "a", [.left], named⟩, ⟨1, "b", [.left, .left], leaf .nat ["%b"]⟩,
        ⟨2, "default", [.left, .right], leaf .unit []⟩,
        ⟨3, "b_0", [.right, .left], leaf .string ["@x", "%b"]⟩,
        ⟨4, "default_0", [.right, .right], leaf .bytes ["%"]⟩] ∧
      parameter.ChoicePosition [.right, .left] (leaf .string ["@x", "%b"]) ∧
      (∃ n : Nat, "b_0" = "b" ++ "_" ++ toString n ∧ "b_0" ∉ ["a", "b", "default"]) ∧
      pathTo? parameter "b_0" = some "RL" ∧ pathTo? parameter "x" = none := by
  intro leaf named parameter
  let entry : Entrypoint := ⟨3, "b_0", [.right, .left], leaf .string ["@x", "%b"]⟩
  obtain ⟨hlisted, -, -, hnames, -, hfind, hnone⟩ := listing_ofType parameter
  have hlist : ofType parameter = [⟨0, "a", [.left], named⟩,
      ⟨1, "b", [.left, .left], leaf .nat ["%b"]⟩, ⟨2, "default", [.left, .right], leaf .unit []⟩,
      entry, ⟨4, "default_0", [.right, .right], leaf .bytes ["%"]⟩] := by cbv
  have hmem : entry ∈ ofType parameter := by simp [hlist]
  obtain ⟨-, -, -, hused⟩ := hnames [_, _, _] entry [_] hlist
  obtain ⟨n, hname, hnew, -⟩ := hused (by decide)
  refine ⟨hlist, ((hlisted _ _).1 ⟨entry, hmem, rfl, rfl⟩).1, ⟨n, hname, hnew⟩, ?_, ?_⟩
  · exact (hfind entry hmem).2
  · exact (hnone "x" (by rw [hlist]; decide)).2

end Michelson.Entrypoint
