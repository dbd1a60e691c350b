/-
# Reading records

A record is read field by field into a state.  An object gives its fields in any order: members of
different names lead to a state that depends on which members there are, and not on where they stand
(`foldlM_readMember`).  Whatever the form of the record is, a property that the reading of each
field keeps is one of the state in the end (`keeps_of_readRecord`).
-/
import Mathlib.Tactic
import Michelson.Json.Record
import Michelson.Proofs.Except

namespace Michelson.Document

lemma ofJson_ne_null {j : Json} (h : j ≠ .null) : ofJson j ≠ .null := by
  cases j <;> simp_all [ofJson]

lemma ofItems_eq_map (js : List Json) : ofItems js = js.map ofJson := by
  induction js with
  | nil => rfl
  | cons j js ih => rw [ofItems, ih, List.map_cons]

lemma ofMembers_eq_map (ms : List (String × Json)) :
    ofMembers ms = ms.map fun m => (m.1, ofJson m.2) := by
  induction ms with
  | nil => rfl
  | cons m ms ih => rw [ofMembers, ofMember, ih, List.map_cons]

variable {σ : Type} {fields : List (Field σ)} {levels : Nat}

/-- The members of an object are read one after the other.  `state` is the state that some members
lead to; a member of a new name leads on to the state with this member. -/
lemma foldlM_readMember (state : List (String × Document) → σ) (Ok : String × Document → Prop)
    (hstep : ∀ before m, m.1 ∉ before.map Prod.fst → Ok m →
      readMember fields levels (state before) m = .ok (state (before ++ [m])))
    {ms : List (String × Document)} (hnodup : (ms.map Prod.fst).Nodup) (hok : ∀ m ∈ ms, Ok m) :
    ms.foldlM (readMember fields levels) (state []) = .ok (state ms) := by
  suffices h : ∀ before, ((before ++ ms).map Prod.fst).Nodup →
      ms.foldlM (readMember fields levels) (state before) = .ok (state (before ++ ms)) from
    h [] hnodup
  clear hnodup
  induction ms with
  | nil =>
    intro before _
    rw [List.append_nil]
    rfl
  | cons m ms ih =>
    intro before hnodup
    have hnew : m.1 ∉ before.map Prod.fst := by
      rw [List.map_append, List.map_cons] at hnodup
      exact fun hmem => (List.nodup_middle.1 hnodup).notMem (List.mem_append_left _ hmem)
    have happend : before ++ m :: ms = before ++ [m] ++ ms := by rw [List.append_assoc]; rfl
    rw [List.foldlM_cons, hstep before m hnew (hok m List.mem_cons_self), Except.ok_bind, happend]
    rw [happend] at hnodup
    exact ih (fun m' hm' => hok m' (List.mem_cons_of_mem m hm')) (before ++ [m]) hnodup

/-- The record of an object that ends where its text does. -/
lemma readRecord_object (record : String) {blank s : σ} {ms : List (String × Document)}
    (h : ms.foldlM (readMember fields levels) blank = .ok s) :
    (object ms true).readRecord record fields blank (levels + 1) = .ok s := by
  rw [readRecord, if_neg (Nat.succ_ne_zero levels), Nat.add_sub_cancel, h]
  rfl

/-- A record takes a level. -/
lemma readRecord_zero {record : String} {blank s : σ} {d : Document} :
    d.readRecord record fields blank 0 ≠ .ok s := by
  unfold readRecord
  split <;> simp

/-! ### Properties of what is read -/

variable {P : σ → Prop}

lemma keeps_of_readMember
    (hfields : ∀ f ∈ fields, ∀ d s s', P s → f.read levels d s = .ok s' → P s')
    {s s' : σ} {m : String × Document} (hs : P s) (h : readMember fields levels s m = .ok s') :
    P s' := by
  unfold readMember at h
  split at h
  case h_1 =>
    -- a member of an unknown name changes nothing
    split at h <;> cases h
    exact hs
  case h_2 f hfind =>
    split at h
    · cases h
    · exact hfields f (List.mem_of_find?_eq_some hfind) _ _ _ hs h

lemma keeps_of_readPositions {record : String} {total : Nat} {closed : Bool}
    (hfields : ∀ f ∈ fields, ∀ d s s', P s → f.read levels d s = .ok s' → P s')
    {position : Nat} {items : List Document} {s s' : σ} (hs : P s)
    (h : readPositions record total levels closed position fields items s = .ok s') : P s' := by
  induction fields generalizing position items s with
  | nil =>
    cases items with
    | nil =>
      rw [readPositions] at h
      split at h <;> cases h
      exact hs
    | cons d items => cases h
  | cons f fields ih =>
    have htail := fun g hg => hfields g (List.mem_cons_of_mem f hg)
    cases items with
    | nil =>
      rw [readPositions] at h
      split at h
      · exact ih htail hs h
      · split at h <;> cases h
    | cons d items =>
      rw [readPositions] at h
      obtain ⟨mid, hmid, h⟩ := Except.bind_eq_ok_iff.1 h
      exact ih htail (hfields f List.mem_cons_self d s mid hs hmid) h

/-- What holds of the blank state and is kept by the reading of each field holds of a record that
was read, be it from an object or from a list. -/
lemma keeps_of_readRecord {record : String} {blank s : σ} {d : Document} (hblank : P blank)
    (hfields : ∀ f ∈ fields, ∀ d s s', P s → f.read (levels - 1) d s = .ok s' → P s')
    (h : d.readRecord record fields blank levels = .ok s) : P s := by
  unfold readRecord at h
  split at h
  case h_1 members closed =>
    split at h
    · cases h
    · obtain ⟨last, hlast, h⟩ := Except.bind_eq_ok_iff.1 h
      split at h <;> cases h
      exact Except.keeps_of_foldlM (fun s m s' hs hm => keeps_of_readMember hfields hs hm) hblank
        hlast
  case h_2 items closed =>
    split at h
    · cases h
    · exact keeps_of_readPositions hfields hblank h
  case h_3 => cases h

/-! ### Lists -/

variable {α : Type} {item : Nat → Document → Except ReadFault α}

lemma readList_ofJson {js : List Json} :
    readList item (levels + 1) (ofJson (.array js)) = (js.map ofJson).mapM (item levels) := by
  rw [ofJson, readList, ofItems_eq_map, if_neg (Nat.succ_ne_zero levels), Nat.add_sub_cancel]
  cases (js.map ofJson).mapM (item levels) <;> rfl

/-- A list takes one level, and each of its members is read in the levels that are left. -/
lemma exists_of_mem_readList {d : Document} {as : List α} (h : readList item levels d = .ok as) :
    levels ≠ 0 ∧ ∀ a ∈ as, ∃ d, item (levels - 1) d = .ok a := by
  unfold readList at h
  split at h
  case h_1 items closed =>
    split at h
    case isTrue => cases h
    case isFalse hlevels =>
      obtain ⟨values, hvalues, h⟩ := Except.bind_eq_ok_iff.1 h
      split at h <;> cases h
      refine ⟨hlevels, fun a ha => ?_⟩
      obtain ⟨d, -, hd⟩ := Except.exists_of_mem_mapM hvalues ha
      exact ⟨d, hd⟩
  case h_2 => cases h

end Michelson.Document
