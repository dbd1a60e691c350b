/-
# Layouts of pairs

The values of the fields of a pair can be written in one row, as a comb that nests to the right, as
a sequence, or in any mix of these (`IsLayout`).  Splitting a value along the spine of its type
undoes every layout of as many values as the spine has parts (`splitSpine_of_isLayout`), so all
layouts have the same named parts, and with them the same renderings, paths and tours.

Only a fault of the value as a whole tells layouts apart, since its text shows the value.  The main
statement is `access_eq_of_isLayout`.
-/
import Michelson.Proofs.TypedValue.Rendering

namespace Michelson

namespace TypedValue

open Michelson.Expr

/-- The layouts of some values: a single value is written as it is; of several values, the first
ones are the first arguments of a pair or the first items of a sequence, whose last argument or
item is a layout of the others. -/
inductive IsLayout : List Expr → Expr → Prop
  | single (x : Expr) : IsLayout [x] x
  | pair {front rest : List Expr} {last : Expr} {annots : List String} {w u : Bool} :
      front ≠ [] → IsLayout rest last →
      IsLayout (front ++ rest) (app (.data .pair) (front ++ [last]) annots w u)
  | sequence {front rest : List Expr} {last : Expr} {u : Bool} :
      front ≠ [] → IsLayout rest last → IsLayout (front ++ rest) (seq (front ++ [last]) u)

/-! ### Splitting undoes layouts -/

variable {xs : List Expr} {type value x y a b last : Expr} {more : List Expr}

lemma IsLayout.ne_nil (h : IsLayout xs value) : xs ≠ [] := by
  cases h with
  | single => exact List.cons_ne_nil value []
  | pair hfront _ => exact List.append_ne_nil_of_left_ne_nil hfront _
  | sequence hfront _ => exact List.append_ne_nil_of_left_ne_nil hfront _

/-- A single value has no other layout. -/
lemma IsLayout.eq_of_singleton (h : IsLayout [a] value) : value = a := by
  generalize hxs : [a] = xs at h
  cases h with
  | single => exact (List.singleton_inj.1 hxs).symm
  | pair hfront hrest =>
    rcases List.append_eq_singleton_iff.1 hxs.symm with ⟨h, -⟩ | ⟨-, h⟩
    · exact absurd h hfront
    · exact absurd h hrest.ne_nil
  | sequence hfront hrest =>
    rcases List.append_eq_singleton_iff.1 hxs.symm with ⟨h, -⟩ | ⟨-, h⟩
    · exact absurd h hfront
    · exact absurd h hrest.ne_nil

lemma splitSpine_of_two (hvalue : value.applies (.data .pair) || value.isSequence)
    (hargs : value.args = [a, last]) (count : Nat) :
    splitSpine (count + 2) value = (splitSpine (count + 1) last).map (a :: ·) := by
  rw [splitSpine, if_pos hvalue, hargs]

/-- What is left of a row of more than two is a pair again. -/
lemma splitSpine_of_more (hvalue : value.applies (.data .pair) || value.isSequence)
    (hargs : value.args = a :: more) (hmore : 2 ≤ more.length) (count : Nat) :
    splitSpine (count + 2) value =
      (splitSpine (count + 1) (apply (.data .pair) more)).map (a :: ·) := by
  obtain ⟨b, c, rest, rfl⟩ : ∃ b c rest, more = b :: c :: rest := by
    rcases more with _ | ⟨b, _ | ⟨c, rest⟩⟩
    · exact absurd hmore (by decide)
    · exact absurd hmore (by simp)
    · exact ⟨b, c, rest, rfl⟩
  rw [splitSpine, if_pos hvalue, hargs]

/-- The arguments in front of the last one are split off one by one. -/
lemma splitSpine_append {front : List Expr}
    (hvalue : value.applies (.data .pair) || value.isSequence)
    (hargs : value.args = front ++ [last]) (hfront : front ≠ []) (count : Nat) :
    splitSpine (front.length + (count + 1)) value =
      (splitSpine (count + 1) last).map (front ++ ·) := by
  induction front generalizing value with
  | nil => exact absurd rfl hfront
  | cons a front ih =>
    have hcount : (a :: front).length + (count + 1) = front.length + count + 2 := by
      rw [List.length_cons]
      omega
    rw [hcount]
    cases front with
    | nil =>
      rw [splitSpine_of_two hvalue hargs, List.length_nil, Nat.zero_add]
      rfl
    | cons b front =>
      rw [List.cons_append] at hargs
      have hrest := @ih (apply (.data .pair) (b :: front ++ [last])) rfl rfl
        (List.cons_ne_nil b front)
      rw [splitSpine_of_more hvalue hargs (by simp), Nat.add_assoc, hrest, Option.map_map]
      rfl

/-- However some values are laid out, splitting off as many fields gives them back. -/
theorem splitSpine_of_isLayout (h : IsLayout xs value) : splitSpine xs.length value = some xs := by
  induction h with
  | single x => rfl
  | @pair front rest last annots w u hfront hrest ih =>
    obtain ⟨count, hcount⟩ := Nat.exists_eq_succ_of_ne_zero
      (mt List.length_eq_zero_iff.1 hrest.ne_nil)
    rw [hcount] at ih
    rw [List.length_append, hcount, splitSpine_append rfl rfl hfront, ih, Option.map_some]
  | @sequence front rest last u hfront hrest ih =>
    obtain ⟨count, hcount⟩ := Nat.exists_eq_succ_of_ne_zero
      (mt List.length_eq_zero_iff.1 hrest.ne_nil)
    rw [hcount] at ih
    rw [List.length_append, hcount, splitSpine_append rfl rfl hfront, ih, Option.map_some]

/-! ### The same parts -/

/-- A pair type without arguments has a spine of one part, and one value has one layout only. -/
lemma eq_of_isLayout_of_args_isEmpty (hargs : type.args.isEmpty)
    (hcount : type.combParts.length = xs.length) (hx : IsLayout xs x) (hy : IsLayout xs y) :
    x = y := by
  rw [combParts_of_args_isEmpty hargs, List.length_singleton] at hcount
  obtain ⟨a, rfl⟩ := List.length_eq_one_iff.1 hcount.symm
  rw [hx.eq_of_singleton, hy.eq_of_singleton]

lemma fields_eq_of_isLayout (hp : type.isPair) (hcount : type.combParts.length = xs.length)
    (hx : IsLayout xs x) (hy : IsLayout xs y) : fields type x = fields type y := by
  by_cases hargs : type.args.isEmpty
  · rw [eq_of_isLayout_of_args_isEmpty hargs hcount hx hy]
  · have hargs : type.args.isEmpty = false := by simpa using hargs
    rw [fields_eq hp hargs, fields_eq hp hargs, spineFields, spineFields, hcount,
      splitSpine_of_isLayout hx, splitSpine_of_isLayout hy]

variable {v w : TypedValue} {fault : ShapeFault} {cs : List (String × TypedValue)}

/-- Two layouts have the same named parts, or both do not fit the type. -/
lemma children_of_isLayout (htype : type.applies (.type .pair))
    (hcount : type.combParts.length = xs.length) (hx : IsLayout xs x) (hy : IsLayout xs y) :
    (∃ cs, children ⟨type, x⟩ = .ok cs ∧ children ⟨type, y⟩ = .ok cs) ∨
      parts ⟨type, x⟩ = .error (mismatch ⟨type, x⟩) ∧
        parts ⟨type, y⟩ = .error (mismatch ⟨type, y⟩) := by
  have hfields := fields_eq_of_isLayout (isPair_of_applies htype) hcount hx hy
  cases type with
  | literal l u => cases htype
  | seq items u => cases htype
  | app p args annots w u =>
    obtain rfl : p = .type .pair := Option.some.inj (applies_iff.1 htype)
    rw [parts_pair, parts_pair, ← hfields]
    cases hfs : fields (app (.type .pair) args annots w u) x with
    | none => exact .inr ⟨rfl, rfl⟩
    | some fs =>
      have hx := parts_of_fields (v := ⟨_, x⟩) rfl hfs
      have hy := parts_of_fields (v := ⟨_, y⟩) rfl (hfields ▸ hfs)
      exact .inl ⟨_, children_of_nameFields hx, children_of_nameFields hy⟩

/-! ### The same access -/

lemma step_of_error {whole name : String} (h : v.children = .error fault) :
    step whole v name = .error (.shape fault) := by
  rw [step, h]

lemma step_eq_of_children {whole name : String} (h : v.children = w.children) :
    step whole v name = step whole w name := by
  rw [step, step, h]

lemma side?_of_applies_pair (h : v.type.applies (.type .pair)) : v.side? = none :=
  side?_of_isNesting (isNesting_iff.2 (.inl (applies_iff.1 h)))

lemma tour_eq_of_side? {visitor : Visitor} (h : v.side? = none) :
    tour visitor v = tourBelow visitor "" v .done := by
  rw [tour, unwrap_of_side? h]

/-- A path that is not empty starts with a step from the pair. -/
lemma exists_get_eq {path : String} (hpath : path ≠ "") :
    ∃ (name : String) (names : List String), ∀ v : TypedValue, v.type.applies (.type .pair) →
      v.get path = step path v name >>= names.foldlM (step path) := by
  have hne : Text.split '.' path ≠ [] := by
    rw [Text.split]
    exact mt List.map_eq_nil_iff.1 (Text.splitChars_ne_nil '.' path.toList)
  obtain ⟨name, names, hsplit⟩ := List.exists_cons_of_ne_nil hne
  refine ⟨name, names, fun v hv => ?_⟩
  rw [get_eq, unwrap_of_side? (side?_of_applies_pair hv), segments, if_neg hpath, hsplit]
  rfl

/-- Access to a pair does not depend on how its fields are laid out.  Two layouts of as many values
as the spine of the type has parts have the same rendering, the same value and the same readings at
every path that is not empty, and the same tours, whatever was seen on the way.  If the values in
them do not fit the type, both have the fault that the value as a whole does not fit. -/
theorem access_eq_of_isLayout (type : Expr) (xs : List Expr) (x y : Expr)
    (htype : type.applies (.type .pair)) (hcount : type.combParts.length = xs.length)
    (hx : IsLayout xs x) (hy : IsLayout xs y) :
    let v : TypedValue := ⟨type, x⟩
    let w : TypedValue := ⟨type, y⟩
    (v.render = w.render ∨
        v.render = .error v.mismatch ∧ w.render = .error w.mismatch) ∧
      (∀ path, path ≠ "" →
        (v.get path = w.get path ∨ v.get path = .error (.shape v.mismatch) ∧
          w.get path = .error (.shape w.mismatch)) ∧
        ∀ (α : Type) (reading : TypedValue → Option α),
          v.read? reading path = w.read? reading path) ∧
      (∀ visitor, tour visitor v = tour visitor w ∨
        tour visitor v = .failed v.mismatch ∧ tour visitor w = .failed w.mismatch) ∧
      ∀ skip, walk skip v = walk skip w ∨
        walk skip v = .failed v.mismatch ∧ walk skip w = .failed w.mismatch := by
  intro v w
  by_cases hargs : type.args.isEmpty
  · obtain rfl := eq_of_isLayout_of_args_isEmpty hargs hcount hx hy
    exact ⟨.inl rfl, fun path _ => ⟨.inl rfl, fun _ _ => rfl⟩, fun _ => .inl rfl, fun _ => .inl rfl⟩
  have hbare : isBarePair type = false := by simp [isBarePair, hargs]
  have hlayout : v.layout = .object ∧ w.layout = .object := by
    simp [layout, v, w, applies_iff.1 htype]
  have hside : v.side? = none ∧ w.side? = none :=
    ⟨side?_of_applies_pair htype, side?_of_applies_pair htype⟩
  rw [render_object hlayout.1, render_object hlayout.2]
  rcases children_of_isLayout htype hcount hx hy with ⟨cs, hv, hw⟩ | ⟨hv, hw⟩
  · have htour : ∀ visitor, tour visitor v = tour visitor w := fun visitor => by
      rw [tour_eq_of_side? hside.1, tour_eq_of_side? hside.2, tourBelow_of_ok hbare hv,
        tourBelow_of_ok hbare hw]
    refine ⟨.inl ?_, fun path hpath => ?_, fun visitor => .inl (htour visitor),
      fun skip => .inl ?_⟩
    · rw [renderParts_eq_mapM hv, renderParts_eq_mapM hw]
    · obtain ⟨name, names, hget⟩ := exists_get_eq hpath
      have heq : v.get path = w.get path := by
        rw [hget v htype, hget w htype, step_eq_of_children (hv.trans hw.symm)]
      exact ⟨.inl heq, fun α reading => by rw [read?, read?, heq]⟩
    · rw [← tour_eq_walk, ← tour_eq_walk, htour]
  · have htour : ∀ visitor, tour visitor v = .failed v.mismatch ∧
        tour visitor w = .failed w.mismatch := fun visitor => by
      rw [tour_eq_of_side? hside.1, tour_eq_of_side? hside.2,
        tourBelow_of_error (children_of_error hv), tourBelow_of_error (children_of_error hw)]
      exact ⟨rfl, rfl⟩
    refine ⟨.inr ⟨?_, ?_⟩, fun path hpath => ?_, fun visitor => .inr (htour visitor),
      fun skip => .inr ?_⟩
    · rw [renderParts_of_error hv]
      rfl
    · rw [renderParts_of_error hw]
      rfl
    · obtain ⟨name, names, hget⟩ := exists_get_eq hpath
      have hgetv : v.get path = .error (.shape v.mismatch) := by
        rw [hget v htype, step_of_error (children_of_error hv), Except.error_bind]
      have hgetw : w.get path = .error (.shape w.mismatch) := by
        rw [hget w htype, step_of_error (children_of_error hw), Except.error_bind]
      exact ⟨.inr ⟨hgetv, hgetw⟩, fun α reading => by
        rw [read?, read?, hgetv, hgetw]
        rfl⟩
    · rw [← tour_eq_walk, ← tour_eq_walk]
      exact htour fun _ => skip

/-- A pair with a pair inside that is merged into it.  One row of three arguments and a sequence of
two items, the second one a pair, hold the same fields. -/
theorem access_eq_of_isLayout_mixed :
    let inner := type2 .pair (type0 .nat) ((type0 .bool).addAnnot "%b")
    let type := type2 .pair inner (type2 .pair ((type0 .string).addAnnot "%c") (type0 .unit))
    let xs := [data2 .pair (int 1) (data0 .true), string "hi", data0 .unit]
    let v : TypedValue := ⟨type, apply (.data .pair) xs⟩
    let w : TypedValue :=
      ⟨type, list [data2 .pair (int 1) (data0 .true), data2 .pair (string "hi") (data0 .unit)]⟩
    type.applies (.type .pair) ∧ type.combParts.length = xs.length ∧
      IsLayout xs v.value ∧ IsLayout xs w.value ∧
      w.render = .ok (.object [("0", .int 1), ("3", .null), ("b", .bool true), ("c", .text "hi")]) ∧
      w.read? (fun r => r.value.string?) "c" = some "hi" := by
  intro inner type xs v w
  have hinner : fieldsIn inner (data2 .pair (int 1) (data0 .true)) =
      some [⟨type0 .nat, int 1⟩, ⟨(type0 .bool).addAnnot "%b", data0 .true⟩] := by
    have hmerged : isMerged inner := by decide
    rw [fieldsIn, if_pos hmerged, fields_eq rfl rfl]
    rfl
  have hfields : fields type v.value =
      some [⟨type0 .nat, int 1⟩, ⟨(type0 .bool).addAnnot "%b", data0 .true⟩,
        ⟨(type0 .string).addAnnot "%c", string "hi"⟩, ⟨type0 .unit, data0 .unit⟩] := by
    have hsplit : splitSpine type.combParts.length v.value = some xs := by rfl
    rw [fields_eq rfl rfl, spineFields, hsplit, Option.bind_some]
    change (List.mapM (fun part => fieldsIn part.1 part.2) [(inner, _), _, _]).map _ = _
    rw [List.mapM_cons, hinner]
    rfl
  have hchildren : v.children = .ok [("0", ⟨type0 .nat, int 1⟩),
      ("b", ⟨(type0 .bool).addAnnot "%b", data0 .true⟩),
      ("c", ⟨(type0 .string).addAnnot "%c", string "hi"⟩), ("3", ⟨type0 .unit, data0 .unit⟩)] := by
    rw [children, parts_of_fields rfl hfields]
    rfl
  have hrender : v.render =
      .ok (.object [("0", .int 1), ("3", .null), ("b", .bool true), ("c", .text "hi")]) := by
    rw [render_object rfl, renderParts_eq_mapM hchildren]
    cbv
  have hread : v.read? (fun r => r.value.string?) "c" = some "hi" := by
    have hget : v.get "c" = .ok ⟨(type0 .string).addAnnot "%c", string "hi"⟩ := by
      have hstep : step "c" v "c" = .ok ⟨(type0 .string).addAnnot "%c", string "hi"⟩ :=
        step_of_mem hchildren (by decide) (by simp) (unwrap_of_side? rfl) "c"
      have hsegments : segments "c" = ["c"] := by
        rw [segments, if_neg (by decide), split_of_not_mem (by decide)]
      rw [get_eq, unwrap_of_side? rfl, hsegments]
      change step "c" v "c" >>= pure = _
      rw [hstep]
      rfl
    rw [read?, hget]
    rfl
  have hlast : IsLayout [string "hi", data0 .unit] (data2 .pair (string "hi") (data0 .unit)) :=
    .pair (List.cons_ne_nil _ []) (.single (data0 .unit))
  have hx : IsLayout (xs.take 2 ++ [data0 .unit]) v.value :=
    .pair (List.cons_ne_nil _ _) (.single (data0 .unit))
  have hy : IsLayout (xs.take 1 ++ [string "hi", data0 .unit]) w.value :=
    .sequence (List.cons_ne_nil _ []) hlast
  obtain ⟨hw, hpaths, -⟩ := access_eq_of_isLayout type xs v.value w.value rfl rfl hx hy
  refine ⟨rfl, rfl, hx, hy, ?_, ?_⟩
  · rcases hw with heq | ⟨hfault, -⟩
    · exact heq ▸ hrender
    · cases hfault.symm.trans hrender
  · exact ((hpaths "c" (by decide)).2 _ _).symm.trans hread

end TypedValue

end Michelson
