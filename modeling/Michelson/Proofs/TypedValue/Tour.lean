/-
# Tours: walks with a memory

The walk asks at each value whether its parts are to be passed over, and the answer depends on the
path and the value alone.  Whoever walks may keep count of what was seen and answer differently the
next time, so a *tour* answers by the values visited before.  A walk is a tour without a memory
(`tour_eq_walk`).

Inside a pair without arguments stands the pair itself.  A tour that goes on into it comes to it
again, and is given up after as many rounds as a walk is.
-/
import Michelson.Proofs.TypedValue.Walk

namespace Michelson

namespace TypedValue

open Michelson.Expr

/-! ### Going to parts -/

lemma sizeOf_type_lt_of_part {here part child : TypedValue} {parts : List (String × TypedValue)}
    {name : String} (hbare : isBarePair here.type = false) (hparts : here.children = .ok parts)
    (hmem : (name, part) ∈ parts) (hchild : part.unwrap = .ok child) :
    sizeOf child.type < sizeOf here.type :=
  (sizeOf_type_unwrap hchild).trans_lt (sizeOf_type_children hbare hparts _ hmem)

/-- Induction on a value by what is inside its parts, unless it is a pair without arguments. -/
theorem inductParts {P : TypedValue → Prop} (bare : ∀ here, isBarePair here.type → P here)
    (step : ∀ here, isBarePair here.type = false → (∀ parts, here.children = .ok parts →
      ∀ part ∈ parts, ∀ child, part.2.unwrap = .ok child → P child) → P here)
    (v : TypedValue) : P v :=
  if hbare : isBarePair v.type then bare v hbare
  else
    have hbare : isBarePair v.type = false := Bool.eq_false_iff.2 hbare
    step v hbare fun _ hparts _ hmem child hchild =>
      have := sizeOf_type_lt_of_part hbare hparts hmem hchild
      inductParts bare step child
termination_by sizeOf v.type

lemma unwrap_of_isBarePair {v : TypedValue} (h : isBarePair v.type) : v.unwrap = .ok v := by
  refine unwrap_of_side? ?_
  simp only [side?, applies_iff.1 (isBarePair_iff.1 h).1]

/-! ### Tours -/

namespace Walk

/-- The walk that goes on to a value. -/
def enter (w : Walk) (path : String) (v : TypedValue) : Walk :=
  ⟨w.visited ++ [(path, v)], w.fault⟩

/-- The walk that a fault ends. -/
def stop (w : Walk) (fault : ShapeFault) : Walk := ⟨w.visited, some fault⟩

lemma andThen_of_fault {w : Walk} {fault : ShapeFault} (h : w.fault = some fault) (next : Walk) :
    w.andThen next = w := by
  rw [andThen, h]

lemma andThen_assoc (w a b : Walk) : (w.andThen a).andThen b = w.andThen (a.andThen b) := by
  obtain ⟨visited, fault⟩ := w
  obtain ⟨visited', fault'⟩ := a
  cases fault <;> cases fault' <;> simp [andThen]

lemma andThen_failed {w : Walk} (h : w.fault = none) (fault : ShapeFault) :
    w.andThen (failed fault) = w.stop fault := by
  simp [andThen, h, failed, stop]

lemma andThen_visit {w : Walk} (h : w.fault = none) (path : String) (v : TypedValue) (next : Walk) :
    w.andThen (visit path v next) = (w.enter path v).andThen next := by
  simp [andThen, h, visit, enter]

end Walk

/-- Whether the parts of a value at a path are passed over, by what was visited before. -/
abbrev Visitor := List (String × TypedValue) → String → TypedValue → Bool

/-- Goes on with a walk around a pair without arguments. -/
def tourRound (visitor : Visitor) (name : String) (v : TypedValue) :
    (rounds : Nat) → (path : String) → Walk → Walk
  | 0, _, w => w.stop v.mismatch
  | rounds + 1, path, w =>
    let path := below path name
    if visitor w.visited path v then w.enter path v
    else tourRound visitor name v rounds path (w.enter path v)

/-- Goes on with a walk to the values below a value, from the top down. -/
def tourBelow (visitor : Visitor) (path : String) (v : TypedValue) (w : Walk) : Walk :=
  match h : v.children with
  | .error fault => w.stop fault
  | .ok parts =>
    if hbare : isBarePair v.type then
      parts.foldl (fun w part =>
        if w.fault.isSome then w else tourRound visitor part.1 part.2 maxRounds path w) w
    else
      parts.attach.foldl (fun w ⟨(name, part), hp⟩ =>
        if w.fault.isSome then w
        else match hu : part.unwrap with
          | .error fault => w.stop fault
          | .ok child =>
            have : sizeOf child.type < sizeOf v.type :=
              sizeOf_type_lt_of_part (Bool.eq_false_iff.2 hbare) h hp hu
            let path := below path name
            if visitor w.visited path child then w.enter path child
            else tourBelow visitor path child (w.enter path child)) w
termination_by sizeOf v.type

/-- Visits the values inside a value, but not the value itself. -/
def tour (visitor : Visitor) (v : TypedValue) : Walk :=
  match v.unwrap with
  | .error fault => .failed fault
  | .ok top => tourBelow visitor "" top .done

/-- Goes on with a walk to one part and, unless they are passed over, to its parts. -/
def tourPart (visitor : Visitor) (path : String) (w : Walk) (part : String × TypedValue) : Walk :=
  if w.fault.isSome then w
  else match part.2.unwrap with
    | .error fault => w.stop fault
    | .ok child =>
      if visitor w.visited (below path part.1) child then w.enter (below path part.1) child
      else tourBelow visitor (below path part.1) child (w.enter (below path part.1) child)

variable {visitor : Visitor} {skip : String → TypedValue → Bool} {path : String} {v : TypedValue}
  {w : Walk}

lemma tourBelow_of_error {fault : ShapeFault} (h : v.children = .error fault) :
    tourBelow visitor path v w = w.stop fault := by
  rw [tourBelow]
  split
  · next h' =>
    rw [h] at h'
    cases h'
    rfl
  · next h' =>
    rw [h] at h'
    cases h'

/-- A tour goes through the parts one after the other, or around a pair without arguments. -/
lemma tourBelow_of_children {parts : List (String × TypedValue)} (h : v.children = .ok parts) :
    tourBelow visitor path v w =
      if isBarePair v.type then
        parts.foldl (fun w part =>
          if w.fault.isSome then w else tourRound visitor part.1 part.2 maxRounds path w) w
      else parts.foldl (tourPart visitor path) w := by
  rw [tourBelow]
  split
  · next h' =>
    rw [h] at h'
    cases h'
  · next h' =>
    rw [h] at h'
    cases h'
    split
    · rfl
    · -- as for walks, the proofs that come with the parts are not looked at
      refine Eq.trans ?_ List.foldl_attach
      congr 1
      funext w part
      obtain ⟨⟨name, part⟩, hpart⟩ := part
      simp only [tourPart]
      split
      · rfl
      · split
        · next hunwrap => rw [hunwrap]
        · next hunwrap => rw [hunwrap]

lemma tourBelow_of_ok {parts : List (String × TypedValue)} (hbare : isBarePair v.type = false)
    (h : v.children = .ok parts) :
    tourBelow visitor path v w = parts.foldl (tourPart visitor path) w := by
  rw [tourBelow_of_children h, hbare, if_neg Bool.false_ne_true]

lemma tourBelow_of_isBarePair {part : TypedValue} {name : String} (hbare : isBarePair v.type)
    (h : v.children = .ok [(name, part)]) (hw : w.fault = none) :
    tourBelow visitor path v w = tourRound visitor name part maxRounds path w := by
  rw [tourBelow_of_children h, if_pos hbare, List.foldl_cons, List.foldl_nil,
    if_neg (by simp [hw])]

lemma tourPart_of_fault {fault : ShapeFault} (h : w.fault = some fault)
    (part : String × TypedValue) : tourPart visitor path w part = w := by
  rw [tourPart, h]
  rfl

lemma tourPart_of_error {part : String × TypedValue} {fault : ShapeFault} (h : w.fault = none)
    (hpart : part.2.unwrap = .error fault) : tourPart visitor path w part = w.stop fault := by
  rw [tourPart, h, hpart]
  rfl

lemma tourPart_of_ok {part : String × TypedValue} {child : TypedValue} (h : w.fault = none)
    (hpart : part.2.unwrap = .ok child) : tourPart visitor path w part =
      if visitor w.visited (below path part.1) child then w.enter (below path part.1) child
      else tourBelow visitor (below path part.1) child (w.enter (below path part.1) child) := by
  rw [tourPart, h, hpart]
  rfl

/-! ### Walks are tours -/

lemma tourRound_eq_andThen (name : String) (v : TypedValue) (rounds : Nat) : ∀ path w,
    w.fault = none → tourRound (fun _ => skip) name v rounds path w =
      w.andThen (walkRound skip name v rounds path) := by
  induction rounds with
  | zero => exact fun path w hw => (Walk.andThen_failed hw v.mismatch).symm
  | succ rounds ih =>
    intro path w hw
    rw [tourRound, walkRound, Walk.andThen_visit hw]
    split
    · rw [Walk.andThen_done]
    · exact ih _ _ hw

lemma tourPart_eq_andThen {part : String × TypedValue}
    (ih : ∀ child, part.2.unwrap = .ok child → ∀ path w, w.fault = none →
      tourBelow (fun _ => skip) path child w = w.andThen (walkBelow skip path child)) :
    tourPart (fun _ => skip) path w part =
      w.andThen (walkPart skip (below path part.1) part.2) := by
  cases hw : w.fault with
  | some fault => rw [tourPart_of_fault hw, Walk.andThen_of_fault hw]
  | none =>
    cases hpart : part.2.unwrap with
    | error fault =>
      rw [tourPart_of_error hw hpart, walkPart, hpart]
      exact (Walk.andThen_failed hw fault).symm
    | ok child =>
      rw [tourPart_of_ok hw hpart, walkPart, hpart, Walk.andThen_visit hw]
      split
      · rw [Walk.andThen_done]
      · exact ih child hpart _ _ hw

lemma foldl_tourPart_eq_andThen {parts : List (String × TypedValue)}
    (h : ∀ part ∈ parts, ∀ path w,
      tourPart (fun _ => skip) path w part = w.andThen (walkPart skip (below path part.1) part.2)) :
    parts.foldl (tourPart (fun _ => skip) path) w = w.andThen (walkParts skip path parts) := by
  induction parts generalizing w with
  | nil => exact (Walk.andThen_done w).symm
  | cons part rest ih =>
    rw [List.foldl_cons, h part List.mem_cons_self,
      ih fun c hc => h c (List.mem_cons_of_mem part hc), Walk.andThen_assoc]
    rfl

lemma tourBelow_eq_andThen (v : TypedValue) : ∀ path w, w.fault = none →
    tourBelow (fun _ => skip) path v w = w.andThen (walkBelow skip path v) := by
  induction v using inductParts with
  | bare here hbare =>
    intro path w hw
    rcases children_of_isBarePair hbare with hparts | ⟨name, hparts⟩
    · rw [tourBelow_of_error hparts, walkBelow_of_error hparts, Walk.andThen_failed hw]
    · rw [tourBelow_of_isBarePair hbare hparts hw, walkBelow_of_isBarePair hbare hparts,
        tourRound_eq_andThen name here maxRounds path w hw]
  | step here hbare ih =>
    intro path w hw
    cases hparts : here.children with
    | error fault =>
      rw [tourBelow_of_error hparts, walkBelow_of_error hparts, Walk.andThen_failed hw]
    | ok parts =>
      rw [tourBelow_of_ok hbare hparts, walkBelow_of_ok hbare hparts]
      exact foldl_tourPart_eq_andThen fun part hpart path w =>
        tourPart_eq_andThen (ih parts hparts part hpart)

/-- A tour without a memory is a walk. -/
lemma tour_eq_walk (skip : String → TypedValue → Bool) (v : TypedValue) :
    tour (fun _ => skip) v = walk skip v := by
  rw [tour, walk]
  cases v.unwrap with
  | error fault => rfl
  | ok top => exact tourBelow_eq_andThen top "" .done rfl

end TypedValue

end Michelson
