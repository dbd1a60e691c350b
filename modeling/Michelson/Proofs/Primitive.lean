/-
# Codes and names of primitives

The table of primitives holds each of them once, so the code of a primitive and the primitive of a
code undo each other.  It holds each name once as well, so a primitive is found by its name.
-/
import Mathlib.Tactic
import Michelson.Primitive

namespace Michelson.Primitive

lemma nodup_map_name_all : (all.map name).Nodup := by decide +kernel

lemma nodup_all : all.Nodup := .of_map name nodup_map_name_all

lemma mem_all (p : Primitive) : p ∈ all := by
  cases p with
  | keyword k => cases k <;> decide
  | data d => cases d <;> decide
  | type t => cases t <;> decide
  | instruction i => cases i <;> decide
  | constant => decide

lemma length_all_lt : all.length < 256 := by decide +kernel

lemma toNat_code (p : Primitive) : p.code.toNat = all.idxOf p := by
  have hlt : all.idxOf p < all.length := List.idxOf_lt_length_of_mem (mem_all p)
  exact UInt8.toNat_ofNat_of_lt' (hlt.trans length_all_lt)

/-- The primitive of the code of a primitive. -/
lemma ofCode?_code (p : Primitive) : ofCode? p.code = some p := by
  rw [ofCode?, toNat_code]
  exact List.getElem?_idxOf (mem_all p)

/-- The code of the primitive of a code. -/
lemma code_of_ofCode? {c : UInt8} {p : Primitive} (h : ofCode? c = some p) : p.code = c := by
  obtain ⟨hlt, rfl⟩ := List.getElem?_eq_some_iff.1 h
  apply UInt8.toNat.inj
  rw [toNat_code]
  exact nodup_all.idxOf_getElem c.toNat hlt

/-- The primitive of the name of a primitive. -/
lemma ofName?_name (p : Primitive) : ofName? p.name = some p := by
  cases h : ofName? p.name with
  | none => simpa using List.find?_eq_none.1 h p (mem_all p)
  | some q =>
    have hname : q.name = p.name := by simpa using List.find?_some h
    have hq : q ∈ all := List.mem_of_find?_eq_some h
    rw [List.inj_on_of_nodup_map nodup_map_name_all hq (mem_all p) hname]

lemma name_injective : Function.Injective name := by
  intro p q h
  have hread := ofName?_name p
  rw [h, ofName?_name] at hread
  exact (Option.some.inj hread).symm

end Michelson.Primitive
