/-
# How deep values nest

A reader of documents has only so many levels for arrays and objects inside one another.  The
*nesting* of a value is the number of levels that it takes: what is read in some number of levels
nests no deeper (`nesting_le_of_value?`).  The document of a value is that value again when the
levels suffice, and it has no value when an item or a member needs more levels than are left.
-/
import Mathlib.Tactic
import Michelson.Json.Document
import Michelson.Proofs.NameMap

namespace Michelson

namespace Json

mutual

/-- The number of arrays and objects inside one another. -/
def nesting : Json → Nat
  | .array items => nestingAll items + 1
  | .object members => nestingMembers members + 1
  | _ => 0

/-- The nesting of the deepest of some values. -/
def nestingAll : List Json → Nat
  | [] => 0
  | j :: rest => max (nesting j) (nestingAll rest)

/-- The nesting of the deepest of some members. -/
def nestingMembers : List (String × Json) → Nat
  | [] => 0
  | m :: rest => max (nestingMember m) (nestingMembers rest)

/-- The nesting of the value of a member. -/
def nestingMember : String × Json → Nat
  | (_, j) => nesting j

end

lemma nestingAll_le_iff {js : List Json} {n : Nat} :
    nestingAll js ≤ n ↔ ∀ j ∈ js, j.nesting ≤ n := by
  induction js with
  | nil => simp [nestingAll]
  | cons j js ih => rw [nestingAll, Nat.max_le, ih, List.forall_mem_cons]

lemma nestingMembers_le_iff {ms : List (String × Json)} {n : Nat} :
    nestingMembers ms ≤ n ↔ ∀ m ∈ ms, m.2.nesting ≤ n := by
  induction ms with
  | nil => simp [nestingMembers]
  | cons m ms ih => rw [nestingMembers, Nat.max_le, ih, List.forall_mem_cons, nestingMember]

/-- An array takes one level more than its items. -/
lemma nesting_array_le_iff {js : List Json} {n : Nat} :
    (array js).nesting ≤ n ↔ ∃ below, n = below + 1 ∧ ∀ j ∈ js, j.nesting ≤ below := by
  cases n with
  | zero => simp [nesting]
  | succ n => simp [nesting, nestingAll_le_iff]

/-- An object takes one level more than its members. -/
lemma nesting_object_le_iff {ms : List (String × Json)} {n : Nat} :
    (object ms).nesting ≤ n ↔ ∃ below, n = below + 1 ∧ ∀ m ∈ ms, m.2.nesting ≤ below := by
  cases n with
  | zero => simp [nesting]
  | succ n => simp [nesting, nestingMembers_le_iff]

/-- Sorting the members of an object makes it no deeper. -/
lemma nesting_ofMembers_le {ms : List (String × Json)} {n : Nat} (h : ∀ m ∈ ms, m.2.nesting ≤ n) :
    (ofMembers ms).nesting ≤ n + 1 :=
  nesting_object_le_iff.2 ⟨n, rfl, fun m hm => h m (NameMap.mem_of_mem_ofList hm)⟩

end Json

namespace Document

open Json

variable {levels : Nat}

/-! ### What is read nests no deeper than the levels -/

mutual

/-- A value that is read in so many levels nests no deeper. -/
lemma nesting_le_of_value? {levels : Nat} {d : Document} {j : Json}
    (h : value? levels d = some j) : j.nesting ≤ levels := by
  cases d with
  | null | bool b =>
    cases h
    exact Nat.zero_le _
  | number n | text n =>
    obtain ⟨a, -, rfl⟩ := Option.map_eq_some_iff.1 h
    exact Nat.zero_le _
  | broken => cases h
  | array items closed =>
    rw [value?] at h
    split at h
    case isTrue => cases h
    case isFalse hopen =>
      obtain ⟨js, hjs, rfl⟩ := Option.map_eq_some_iff.1 h
      have hlevels : levels = levels - 1 + 1 := by
        simp at hopen
        omega
      exact nesting_array_le_iff.2 ⟨levels - 1, hlevels, nesting_le_of_values? hjs⟩
  | object members closed =>
    rw [value?] at h
    split at h
    case isTrue => cases h
    case isFalse hopen =>
      obtain ⟨ms, hms, rfl⟩ := Option.map_eq_some_iff.1 h
      have hlevels : levels = levels - 1 + 1 := by
        simp at hopen
        omega
      rw [hlevels]
      exact nesting_ofMembers_le (nesting_le_of_memberValues? hms)

lemma nesting_le_of_values? {levels : Nat} {ds : List Document} {js : List Json}
    (h : values? levels ds = some js) : ∀ j ∈ js, j.nesting ≤ levels := by
  cases ds with
  | nil =>
    cases h
    simp
  | cons d ds =>
    obtain ⟨j, hj, htail⟩ := Option.bind_eq_some_iff.1 h
    obtain ⟨js', hjs, hcons⟩ := Option.bind_eq_some_iff.1 htail
    cases hcons
    exact List.forall_mem_cons.2 ⟨nesting_le_of_value? hj, nesting_le_of_values? hjs⟩

lemma nesting_le_of_memberValues? {levels : Nat} {ds : List (String × Document)}
    {ms : List (String × Json)} (h : memberValues? levels ds = some ms) :
    ∀ m ∈ ms, m.2.nesting ≤ levels := by
  cases ds with
  | nil =>
    cases h
    simp
  | cons d ds =>
    obtain ⟨m, hm, htail⟩ := Option.bind_eq_some_iff.1 h
    obtain ⟨ms', hms, hcons⟩ := Option.bind_eq_some_iff.1 htail
    cases hcons
    exact List.forall_mem_cons.2 ⟨nesting_le_of_memberValue? hm, nesting_le_of_memberValues? hms⟩

lemma nesting_le_of_memberValue? {levels : Nat} {d : String × Document} {m : String × Json}
    (h : memberValue? levels d = some m) : m.2.nesting ≤ levels := by
  obtain ⟨name, d⟩ := d
  obtain ⟨j, hj, rfl⟩ := Option.map_eq_some_iff.1 h
  exact nesting_le_of_value? hj

end

/-! ### The value of the document of a value -/

lemma value?_array_of_forall {js : List Json} {f : Json → Json}
    (h : ∀ j ∈ js, value? levels (ofJson j) = some (f j)) :
    value? (levels + 1) (ofJson (.array js)) = some (.array (js.map f)) := by
  have hall : values? levels (ofItems js) = some (js.map f) := by
    induction js with
    | nil => rfl
    | cons j js ih =>
      rw [ofItems, values?, h j List.mem_cons_self, ih fun a ha => h a (List.mem_cons_of_mem j ha)]
      rfl
  rw [ofJson, value?, Nat.add_sub_cancel, hall]
  rfl

lemma value?_object_of_forall {ms : List (String × Json)}
    (h : ∀ m ∈ ms, value? levels (ofJson m.2) = some m.2) :
    value? (levels + 1) (ofJson (.object ms)) = some (.ofMembers ms) := by
  have hall : memberValues? levels (ofMembers ms) = some ms := by
    induction ms with
    | nil => rfl
    | cons m ms ih =>
      rw [ofMembers, memberValues?, ofMember, memberValue?, h m List.mem_cons_self,
        ih fun a ha => h a (List.mem_cons_of_mem m ha)]
      rfl
  rw [ofJson, value?, Nat.add_sub_cancel, hall]
  rfl

lemma exists_of_values?_ofItems {js ks : List Json} (h : values? levels (ofItems js) = some ks) :
    ∀ j ∈ js, ∃ k, value? levels (ofJson j) = some k := by
  induction js generalizing ks with
  | nil => simp
  | cons j js ih =>
    obtain ⟨k, hk, htail⟩ := Option.bind_eq_some_iff.1 h
    obtain ⟨ks', hks, -⟩ := Option.bind_eq_some_iff.1 htail
    exact List.forall_mem_cons.2 ⟨⟨k, hk⟩, ih hks⟩

lemma exists_of_memberValues?_ofMembers {ms ks : List (String × Json)}
    (h : memberValues? levels (ofMembers ms) = some ks) :
    ∀ m ∈ ms, ∃ k, value? levels (ofJson m.2) = some k := by
  induction ms generalizing ks with
  | nil => simp
  | cons m ms ih =>
    obtain ⟨name, j⟩ := m
    obtain ⟨k, hk, htail⟩ := Option.bind_eq_some_iff.1 h
    obtain ⟨ks', hks, -⟩ := Option.bind_eq_some_iff.1 htail
    obtain ⟨j', hj, -⟩ := Option.map_eq_some_iff.1 hk
    exact List.forall_mem_cons.2 ⟨⟨j', hj⟩, ih hks⟩

/-- The items of an array with a value have values in one level less. -/
lemma exists_of_value?_array {js : List Json} {k : Json}
    (h : value? levels (ofJson (.array js)) = some k) :
    ∃ below, levels = below + 1 ∧ ∀ j ∈ js, ∃ k, value? below (ofJson j) = some k := by
  cases levels with
  | zero => simp [ofJson, value?] at h
  | succ below =>
    obtain ⟨ks, hks, -⟩ := Option.map_eq_some_iff.1 h
    exact ⟨below, rfl, exists_of_values?_ofItems hks⟩

/-- The members of an object with a value have values in one level less. -/
lemma exists_of_value?_object {ms : List (String × Json)} {k : Json}
    (h : value? levels (ofJson (.object ms)) = some k) :
    ∃ below, levels = below + 1 ∧ ∀ m ∈ ms, ∃ k, value? below (ofJson m.2) = some k := by
  cases levels with
  | zero => simp [ofJson, value?] at h
  | succ below =>
    obtain ⟨ks, hks, -⟩ := Option.map_eq_some_iff.1 h
    exact ⟨below, rfl, exists_of_memberValues?_ofMembers hks⟩

end Document

end Michelson
