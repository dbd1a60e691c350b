/-
# Access ends

The fields of a pair are found by going into nested pairs, the parts of a value by rendering the
keys of maps, and renderings and tours by going to the parts; nothing in this recursion looks at how
far it has come.  Here it stands as it is and is cut off below some number of levels (`Levels`),
where an access that goes deeper has no outcome.  If every pair in a type has arguments, whatever is
gone on to has a type below that of the value.  So with one level more than the height of the type
every access has an outcome, which is the result of the definitions that recurse on the type
(`access_ends`).

A pair type without arguments is a field of its own, and rendering it has no outcome with any number
of levels (`render_eq_none_of_args_isEmpty`).
-/
import Michelson.Proofs.TypedValue.Below
import Michelson.Proofs.TypedValue.Layouts

namespace Michelson

namespace TypedValue

open Michelson.Expr

/-! ### Access without a measure -/

namespace Levels

/-- The fields of a pair type with their values. -/
def fields : (levels : Nat) → Expr → Expr → Option (Option (List TypedValue))
  | 0, _, _ => none
  | levels + 1, type, value =>
    OptionT.run do
      let values ← OptionT.mk (some (splitSpine type.combParts.length value))
      let parts ← (type.combParts.zip values).mapM fun part =>
        if isMerged part.1 then OptionT.mk (fields levels part.1 part.2)
        else pure [⟨part.1, part.2⟩]
      return parts.flatten

/-- The direct parts of a value. -/
def parts (levels : Nat) (v : TypedValue) : Option (Except ShapeFault (List Part)) :=
  match v.type with
  | .app (.type .pair) _ _ _ _ => do
    match ← fields levels v.type v.value with
    | some fields => return .ok (nameFields fields)
    | none => return .error v.mismatch
  | _ => some v.parts

/-- The name of a part, where keys are rendered by `render`. -/
def partName (render : TypedValue → Option (Except ShapeFault Json)) (v : TypedValue) (p : Part) :
    Option (Except ShapeFault String) :=
  match p with
  | .named name _ => some (.ok name)
  | .keyed key _ => ExceptT.run do
    let j ← ExceptT.mk (render key)
    return memberName j
  | .broken => some (.error v.mismatch)

/-- The direct parts of a value with their names, where keys are rendered by `render`. -/
def namedParts (levels : Nat) (render : TypedValue → Option (Except ShapeFault Json))
    (v : TypedValue) : Option (Except ShapeFault (List (String × TypedValue))) :=
  ExceptT.run do
    let ps ← ExceptT.mk (parts levels v)
    let names ← ps.mapM fun p => ExceptT.mk (partName render v p)
    return names.zip (ps.filterMap Part.child?)

/-- The JSON rendering of a value. -/
def render : (levels : Nat) → TypedValue → Option (Except ShapeFault Json)
  | 0, _ => none
  | levels + 1, v =>
    match v.layout with
    | .leaf => some v.renderLeaf
    | .option =>
      match v.value.prim? with
      | some (.data .some) => ExceptT.run do
        let r ← ExceptT.mk (some (v.content 0))
        ExceptT.mk (render levels r)
      | some (.data .none) => some (.ok .null)
      | _ => some (.error v.mismatch)
    | .choice =>
      match v.choiceSide? with
      | none => some (.error v.mismatch)
      | some (side, name) => ExceptT.run do
        let r ← ExceptT.mk (some (v.content side))
        let j ← ExceptT.mk (render levels r)
        return .object [(r.type.label?.getD name, j)]
    | .object => ExceptT.run do
      let parts ← ExceptT.mk (namedParts (levels + 1) (render levels) v)
      let members ← parts.mapM fun c => do
        let j ← ExceptT.mk (render levels c.2)
        return (c.1, j)
      return .ofMembers members
    | .array => ExceptT.run do
      let parts ← ExceptT.mk (namedParts (levels + 1) (render levels) v)
      let items ← parts.mapM fun c => ExceptT.mk (render levels c.2)
      return .array items

/-- The direct parts of a value with their names. -/
def children (levels : Nat) (v : TypedValue) :
    Option (Except ShapeFault (List (String × TypedValue))) :=
  namedParts levels (render levels) v

/-- The value inside all options and choices around it. -/
def unwrap : (levels : Nat) → TypedValue → Option (Except ShapeFault TypedValue)
  | 0, _ => none
  | levels + 1, v =>
    match v.side? with
    | none => some (.ok v)
    | some side => ExceptT.run do
      let r ← ExceptT.mk (some (v.content side))
      ExceptT.mk (unwrap levels r)

/-- The part that a step of the path `whole` leads to. -/
def step (levels : Nat) (whole : String) (v : TypedValue) (name : String) :
    Option (Except ContractFault TypedValue) := do
  match ← children levels v with
  | .error fault => return .error (.shape fault)
  | .ok parts =>
    match (stepPosition? (parts.map Prod.fst) name).bind fun i => parts[i]? with
    | none => return .error (.path whole name)
    | some (_, child) => return (← unwrap levels child).mapError .shape

/-- The value at a path. -/
def get (levels : Nat) (v : TypedValue) (path : String) :
    Option (Except ContractFault TypedValue) :=
  ExceptT.run do
    let top ← ExceptT.mk ((unwrap levels v).map (Except.mapError .shape))
    (segments path).foldlM (fun v name => ExceptT.mk (step levels path v name)) top

/-- What `reading` makes of the value at a path. -/
def read? {α : Type} (levels : Nat) (reading : TypedValue → Option α) (v : TypedValue)
    (path : String) : Option (Option α) := do
  return (← get levels v path).toOption.bind reading

/-- Goes on with a walk to the values below a value. -/
def tourBelow (visitor : Visitor) :
    (levels : Nat) → (path : String) → TypedValue → Walk → Option Walk
  | 0, _, _, _ => none
  | levels + 1, path, v, w => do
    match ← children (levels + 1) v with
    | .error fault => return w.stop fault
    | .ok parts =>
      parts.foldlM (fun w part =>
        if w.fault.isSome then return w
        else do
          match ← unwrap (levels + 1) part.2 with
          | .error fault => return w.stop fault
          | .ok child =>
            let path := below path part.1
            if visitor w.visited path child then return w.enter path child
            else tourBelow visitor levels path child (w.enter path child)) w

/-- Visits the values inside a value, but not the value itself. -/
def tour (levels : Nat) (visitor : Visitor) (v : TypedValue) : Option Walk := do
  match ← unwrap levels v with
  | .error fault => return .failed fault
  | .ok top => tourBelow visitor levels "" top .done

/-! ### Outcomes -/

variable {α β ε : Type}

/-- A run in which every step has an outcome has one. -/
lemma bind_eq_some {r : Except ε α} {g : α → ExceptT ε Option β} {g' : α → Except ε β}
    (h : ∀ a, r = .ok a → g a = ExceptT.mk (some (g' a))) :
    (ExceptT.mk (some r) >>= g) = ExceptT.mk (some (r >>= g')) := by
  cases r with
  | error fault => rfl
  | ok a => exact h a rfl

lemma mapM_eq_some {as : List α} {f : α → ExceptT ε Option β} {f' : α → Except ε β}
    (h : ∀ a ∈ as, f a = ExceptT.mk (some (f' a))) :
    as.mapM f = ExceptT.mk (some (as.mapM f')) := by
  induction as with
  | nil => rfl
  | cons a as ih =>
    obtain ⟨ha, has⟩ := List.forall_mem_cons.1 h
    rw [List.mapM_cons, List.mapM_cons, ha]
    refine bind_eq_some fun b _ => ?_
    rw [ih has]
    exact bind_eq_some fun bs _ => rfl

/-- A run of steps has an outcome if every step has one that starts from what steps keep. -/
lemma foldlM_eq_some {P : β → Prop} {f : β → α → ExceptT ε Option β} {f' : β → α → Except ε β}
    (hP : ∀ b a b', P b → f' b a = .ok b' → P b')
    (h : ∀ b a, P b → f b a = ExceptT.mk (some (f' b a))) (as : List α) {b : β} (hb : P b) :
    as.foldlM f b = ExceptT.mk (some (as.foldlM f' b)) := by
  induction as generalizing b with
  | nil => rfl
  | cons a as ih =>
    rw [List.foldlM_cons, List.foldlM_cons, h b a hb]
    exact bind_eq_some fun b' hb' => ih (hP b a b' hb hb')

lemma foldlM_option_eq_some {as : List α} {f : β → α → Option β} {f' : β → α → β}
    (h : ∀ b, ∀ a ∈ as, f b a = some (f' b a)) (b : β) : as.foldlM f b = some (as.foldl f' b) := by
  induction as generalizing b with
  | nil => rfl
  | cons a as ih =>
    rw [List.foldlM_cons, h b a List.mem_cons_self]
    exact ih (fun b a ha => h b a (List.mem_cons_of_mem _ ha)) _

lemma mapM_option_eq_some {as : List α} {f : α → OptionT Option β} {f' : α → Option β}
    (h : ∀ a ∈ as, f a = OptionT.mk (some (f' a))) :
    as.mapM f = OptionT.mk (some (as.mapM f')) := by
  induction as with
  | nil => rfl
  | cons a as ih =>
    obtain ⟨ha, has⟩ := List.forall_mem_cons.1 h
    rw [List.mapM_cons, List.mapM_cons, ha, ih has]
    cases f' a with
    | none => rfl
    | some b => cases as.mapM f' <;> rfl

variable {levels : Nat} {v : TypedValue}

/-! ### Types get smaller -/

/-- Merging nested pairs ends. -/
theorem fields_eq_some {type : Expr} (hp : type.applies (.type .pair)) (h : type.HasFilledPairs)
    (hlevels : type.height < levels) (value : Expr) :
    fields levels type value = some (TypedValue.fields type value) := by
  induction levels generalizing type value with
  | zero => exact absurd hlevels (Nat.not_lt_zero _)
  | succ levels ih =>
    have hpair : type.isPair := isPair_of_applies hp
    have hargs := h.args_ne hp
    rw [fields, fields_eq hpair hargs, spineFields]
    cases splitSpine type.combParts.length value with
    | none => rfl
    | some values =>
      have hparts : ((type.combParts.zip values).mapM fun part =>
            if isMerged part.1 then OptionT.mk (fields levels part.1 part.2)
            else pure [⟨part.1, part.2⟩] : OptionT Option (List (List TypedValue))) =
          OptionT.mk
            (some ((type.combParts.zip values).mapM fun part => fieldsIn part.1 part.2)) := by
        refine mapM_option_eq_some fun part hpart => ?_
        have hbelow := isBelow_of_mem_combParts hpair hargs (List.of_mem_zip hpart).1
        rw [fieldsIn]
        split
        · next hmerged =>
          rw [ih (Bool.and_eq_true_iff.1 hmerged).1 (h.of_isBelow hbelow)
            (hbelow.height_lt.trans_le (Nat.le_of_lt_succ hlevels))]
        · rfl
      change OptionT.run (List.mapM _ _ >>= _) = _
      rw [hparts, Option.bind_some]
      cases (type.combParts.zip values).mapM fun part => fieldsIn part.1 part.2 <;> rfl

lemma parts_eq_some (h : v.type.HasFilledPairs) (hlevels : v.type.height < levels) :
    parts levels v = some v.parts := by
  obtain ⟨type, value⟩ := v
  rw [parts]
  split
  · next htype =>
    obtain rfl : type = _ := htype
    rw [fields_eq_some rfl h hlevels, parts_pair]
    cases TypedValue.fields _ value <;> rfl
  · rfl

lemma partName_eq_some {render : TypedValue → Option (Except ShapeFault Json)} {p : Part}
    (h : ∀ key ∈ p.values, render key = some key.render) :
    partName render v p = some (v.partName p) := by
  cases p with
  | named name child => rfl
  | keyed key child =>
    rw [partName, h key List.mem_cons_self, TypedValue.partName]
    cases key.render <;> rfl
  | broken => rfl

lemma namedParts_eq_some {render : TypedValue → Option (Except ShapeFault Json)}
    (h : v.type.HasFilledPairs) (hlevels : v.type.height < levels)
    (hrender : ∀ c : TypedValue, c.type.IsBelow v.type → render c = some c.render) :
    namedParts levels render v = some v.children := by
  rw [namedParts, parts_eq_some h hlevels, TypedValue.children]
  refine bind_eq_some fun ps hps => ?_
  have hnames : (ps.mapM fun p => ExceptT.mk (partName render v p) :
      ExceptT ShapeFault Option _) = ExceptT.mk (some (ps.mapM v.partName)) := by
    refine mapM_eq_some fun p hp => ?_
    rw [partName_eq_some fun c hc => hrender c (isBelow_of_parts h.isBarePair_eq hps hp hc)]
  rw [hnames]
  exact bind_eq_some fun names _ => rfl

/-- Rendering ends. -/
theorem render_eq_some (h : v.type.HasFilledPairs) (hlevels : v.type.height < levels) :
    render levels v = some v.render := by
  induction levels generalizing v with
  | zero => exact absurd hlevels (Nat.not_lt_zero _)
  | succ levels ih =>
    have hrender : ∀ c : TypedValue, c.type.IsBelow v.type → render levels c = some c.render :=
      fun c hc => ih (h.of_isBelow hc) (hc.height_lt.trans_le (Nat.le_of_lt_succ hlevels))
    have hparts := namedParts_eq_some h hlevels hrender
    rw [render]
    cases hlayout : v.layout with
    | leaf => rw [TypedValue.render, hlayout]
    | option =>
      simp only
      by_cases hsome : v.value.prim? = some (.data .some)
      · rw [render_option_some hlayout hsome, hsome]
        refine bind_eq_some fun r hr => ?_
        rw [hrender r (isBelow_of_content hr)]
      by_cases hnone : v.value.prim? = some (.data .none)
      · rw [render_option_none hlayout hnone, hnone]
      · rw [render_option_other hlayout hsome hnone]
        split
        · next h => exact absurd h hsome
        · next h => exact absurd h hnone
        · rfl
    | choice =>
      simp only
      cases hside : v.choiceSide? with
      | none => rw [render_choice_none hlayout hside]
      | some side =>
        rw [render_choice_some hlayout hside]
        refine bind_eq_some fun r hr => ?_
        rw [hrender r (isBelow_of_content hr)]
        exact bind_eq_some fun j _ => rfl
    | object =>
      simp only
      rw [render_object_eq_bind hlayout, hparts]
      refine bind_eq_some fun cs hcs => ?_
      have hmembers : (cs.mapM fun c => do
            let j ← ExceptT.mk (render levels c.2)
            return (c.1, j) : ExceptT ShapeFault Option _) =
          ExceptT.mk (some (cs.mapM fun c => c.2.render.map fun j => (c.1, j))) := by
        refine mapM_eq_some fun c hc => ?_
        rw [hrender c.2 (isBelow_of_children h.isBarePair_eq hcs c hc)]
        cases c.2.render <;> rfl
      rw [hmembers]
      exact bind_eq_some fun members _ => rfl
    | array =>
      simp only
      rw [render_array_eq_bind hlayout, hparts]
      refine bind_eq_some fun cs hcs => ?_
      have hitems : (cs.mapM fun c => ExceptT.mk (render levels c.2) :
          ExceptT ShapeFault Option _) = ExceptT.mk (some (cs.mapM fun c => c.2.render)) := by
        refine mapM_eq_some fun c hc => ?_
        rw [hrender c.2 (isBelow_of_children h.isBarePair_eq hcs c hc)]
      rw [hitems]
      exact bind_eq_some fun items _ => rfl

/-- The parts of a value and the keys that name them are found. -/
theorem children_eq_some (h : v.type.HasFilledPairs) (hlevels : v.type.height < levels) :
    children levels v = some v.children :=
  namedParts_eq_some h hlevels fun _ hc =>
    render_eq_some (h.of_isBelow hc) (hc.height_lt.trans hlevels)

/-- Looking through options and choices ends on every type. -/
theorem unwrap_eq_some (hlevels : v.type.height < levels) : unwrap levels v = some v.unwrap := by
  induction levels generalizing v with
  | zero => exact absurd hlevels (Nat.not_lt_zero _)
  | succ levels ih =>
    rw [unwrap, TypedValue.unwrap]
    cases v.side? with
    | none => rfl
    | some side =>
      simp only
      cases hr : v.content side with
      | error fault => rfl
      | ok r =>
        exact ih ((isBelow_of_content hr).height_lt.trans_le (Nat.le_of_lt_succ hlevels))

/-- What is inside options and choices needs no more levels. -/
lemma bounds_of_unwrap {r : TypedValue} (h : v.type.HasFilledPairs)
    (hlevels : v.type.height < levels) (hr : v.unwrap = .ok r) :
    r.type.HasFilledPairs ∧ r.type.height < levels := by
  rcases eq_or_isBelow_of_unwrap hr with rfl | hbelow
  · exact ⟨h, hlevels⟩
  · exact ⟨h.of_isBelow hbelow, hbelow.height_lt.trans hlevels⟩

lemma step_eq_some (h : v.type.HasFilledPairs) (hlevels : v.type.height < levels)
    (whole name : String) : step levels whole v name = some (v.step whole name) := by
  rw [step, TypedValue.step, children_eq_some h hlevels]
  cases hcs : v.children with
  | error fault => rfl
  | ok cs =>
    cases hstep : (stepPosition? (cs.map Prod.fst) name).bind fun i => cs[i]? with
    | none => simp [hstep]
    | some c =>
      obtain ⟨i, -, hi⟩ := Option.bind_eq_some_iff.1 hstep
      have hbelow := isBelow_of_children h.isBarePair_eq hcs c (List.mem_of_getElem? hi)
      simp [hstep, unwrap_eq_some (hbelow.height_lt.trans hlevels)]

/-- Following a path ends. -/
theorem get_eq_some (h : v.type.HasFilledPairs) (hlevels : v.type.height < levels)
    (path : String) : get levels v path = some (v.get path) := by
  rw [get, get_eq, unwrap_eq_some hlevels]
  cases htop : v.unwrap with
  | error fault => rfl
  | ok top =>
    refine foldlM_eq_some (P := fun v : TypedValue =>
      v.type.HasFilledPairs ∧ v.type.height < levels)
      (fun v name r hv hr => ?_) (fun v name hv => ?_) _ ?_
    · have hbelow := isBelow_of_step hv.1.isBarePair_eq hr
      exact ⟨hv.1.of_isBelow hbelow, hbelow.height_lt.trans hv.2⟩
    · rw [step_eq_some hv.1 hv.2]
    · exact bounds_of_unwrap h hlevels htop

/-- Going through the parts ends. -/
theorem tourBelow_eq_some (visitor : Visitor) (h : v.type.HasFilledPairs)
    (hlevels : v.type.height < levels) (path : String) (w : Walk) :
    tourBelow visitor levels path v w = some (TypedValue.tourBelow visitor path v w) := by
  induction levels generalizing path v w with
  | zero => exact absurd hlevels (Nat.not_lt_zero _)
  | succ levels ih =>
    rw [tourBelow, children_eq_some h hlevels]
    cases hcs : v.children with
    | error fault =>
      rw [tourBelow_of_error hcs]
      rfl
    | ok cs =>
      rw [tourBelow_of_ok h.isBarePair_eq hcs]
      refine foldlM_option_eq_some (fun w c hc => ?_) w
      have hc := isBelow_of_children h.isBarePair_eq hcs c hc
      rw [tourPart, unwrap_eq_some (hc.height_lt.trans hlevels)]
      split
      · rfl
      · cases hchild : c.2.unwrap with
        | error fault => rfl
        | ok child =>
          have hbelow : child.type.IsBelow v.type := by
            rcases eq_or_isBelow_of_unwrap hchild with rfl | hchild
            · exact hc
            · exact hc.of_mem_nodes (mem_nodes_iff.2 (.inr hchild))
          simp only [Option.bind_eq_bind, Option.bind_some]
          split
          · rfl
          · exact ih (h.of_isBelow hbelow)
              (hbelow.height_lt.trans_le (Nat.le_of_lt_succ hlevels)) _ _

theorem tour_eq_some (visitor : Visitor) (h : v.type.HasFilledPairs)
    (hlevels : v.type.height < levels) :
    tour levels visitor v = some (TypedValue.tour visitor v) := by
  rw [tour, TypedValue.tour, unwrap_eq_some hlevels]
  cases htop : v.unwrap with
  | error fault => rfl
  | ok top =>
    obtain ⟨htop, htopLevels⟩ := bounds_of_unwrap h hlevels htop
    exact tourBelow_eq_some visitor htop htopLevels "" .done

/-! ### Pairs without arguments -/

/-- A pair type without arguments and without a label is merged into itself, over and over. -/
theorem fields_eq_none {type : Expr} (hmerged : isMerged type) (hargs : type.args.isEmpty)
    (value : Expr) : fields levels type value = none := by
  induction levels with
  | zero => rfl
  | succ levels ih =>
    rw [fields, combParts_of_args_isEmpty hargs]
    change OptionT.run (List.mapM _ [(type, value)] >>= _) = _
    rw [List.mapM_cons, if_pos hmerged, ih]
    rfl

/-- With a label it is its own only field. -/
lemma fields_eq_self {type : Expr} (hmerged : isMerged type = false) (hargs : type.args.isEmpty)
    (value : Expr) : fields (levels + 1) type value = some (some [⟨type, value⟩]) := by
  rw [fields, combParts_of_args_isEmpty hargs]
  change OptionT.run (List.mapM _ [(type, value)] >>= _) = _
  rw [List.mapM_cons, if_neg (by simp [hmerged])]
  rfl

/-- Rendering a pair type without arguments has no outcome, whatever the value. -/
theorem render_eq_none_of_args_isEmpty (levels : Nat) (v : TypedValue)
    (hp : v.type.applies (.type .pair)) (hargs : v.type.args.isEmpty) :
    render levels v = none := by
  induction levels with
  | zero => rfl
  | succ levels ih =>
    have hlayout : v.layout = .object := by simp [layout, applies_iff.1 hp]
    rw [render, hlayout]
    obtain ⟨type, value⟩ := v
    cases type with
    | literal l u => cases hp
    | seq items u => cases hp
    | app p args annots w u =>
      obtain rfl : p = .type .pair := Option.some.inj (applies_iff.1 hp)
      simp only [namedParts, parts]
      cases hmerged : isMerged (app (.type .pair) args annots w u) with
      | true =>
        rw [fields_eq_none hmerged hargs]
        rfl
      | false =>
        -- the only part is the value itself
        rw [fields_eq_self hmerged hargs]
        change ExceptT.run (List.mapM (m := ExceptT ShapeFault Option) _ [_] >>= _) = none
        rw [List.mapM_cons, ih]
        rfl

end Levels

/-! ### Access ends -/

/-- Access to a value ends if every pair in its type has arguments.  The parts of the value, the
keys that name them and what an option or a choice holds have types below its type, which is not
below itself; and as soon as there are more levels than the type is high, the fields of pairs, the
named parts, the rendering, the values and readings at all paths, and all tours are found, and are
those that recursion on the type finds. -/
theorem access_ends (v : TypedValue) (levels : Nat) (h : v.type.HasFilledPairs)
    (hlevels : v.type.height < levels) :
    (∀ ps, Levels.parts levels v = some (.ok ps) →
        ∀ p ∈ ps, ∀ c ∈ p.values, c.type.IsBelow v.type) ∧
      (∀ cs, Levels.children levels v = some (.ok cs) → ∀ c ∈ cs, c.2.type.IsBelow v.type) ∧
      (∀ side r, v.content side = .ok r → r.type.IsBelow v.type) ∧
      ¬ v.type.IsBelow v.type ∧
      (v.type.applies (.type .pair) →
        Levels.fields levels v.type v.value = some (fields v.type v.value)) ∧
      Levels.children levels v = some v.children ∧
      Levels.unwrap levels v = some v.unwrap ∧
      Levels.render levels v = some v.render ∧
      (∀ path, Levels.get levels v path = some (v.get path) ∧
        ∀ (α : Type) (reading : TypedValue → Option α),
          Levels.read? levels reading v path = some (v.read? reading path)) ∧
      ∀ visitor, Levels.tour levels visitor v = some (tour visitor v) := by
  have hparts := Levels.parts_eq_some h hlevels
  have hchildren := Levels.children_eq_some h hlevels
  refine ⟨fun ps hps p hp c hc => ?_, fun cs hcs => ?_, fun side r hr => isBelow_of_content hr,
    not_isBelow_self v.type, fun hp => Levels.fields_eq_some hp h hlevels v.value, hchildren,
    Levels.unwrap_eq_some hlevels, Levels.render_eq_some h hlevels, fun path => ?_,
    fun visitor => Levels.tour_eq_some visitor h hlevels⟩
  · exact isBelow_of_parts h.isBarePair_eq (Option.some.inj (hparts ▸ hps)) hp hc
  · exact isBelow_of_children h.isBarePair_eq (Option.some.inj (hchildren ▸ hcs))
  · have hget := Levels.get_eq_some h hlevels path
    refine ⟨hget, fun α reading => ?_⟩
    rw [Levels.read?, hget]
    rfl

/-- A map whose keys are pairs with a pair inside that is merged into them. -/
theorem access_ends_ledger :
    let keyType := type2 .pair (type2 .pair (type0 .nat) (type0 .bool)) (type0 .string)
    let key := data2 .pair (data2 .pair (int 1) (data0 .true)) (string "a")
    let v : TypedValue := ⟨type2 .map keyType (type1 .list (type0 .nat)),
      list [data2 .elt key (list [int 7])]⟩
    let name := "\x7b\"0\":1,\"1\":true,\"2\":\"a\"\x7d"
    v.type.HasFilledPairs ∧ v.type.height < 4 ∧
      Levels.render 4 v = some (.ok (.object [(name, .array [.int 7])])) := by
  intro keyType key v name
  have hfilled : v.type.HasFilledPairs := by decide
  have hinner : fieldsIn (type2 .pair (type0 .nat) (type0 .bool))
      (data2 .pair (int 1) (data0 .true)) =
        some [⟨type0 .nat, int 1⟩, ⟨type0 .bool, data0 .true⟩] := by
    rw [fieldsIn, if_pos (by decide), fields_eq rfl rfl]
    rfl
  have hfields : fields keyType key =
      some [⟨type0 .nat, int 1⟩, ⟨type0 .bool, data0 .true⟩, ⟨type0 .string, string "a"⟩] := by
    have hsplit : splitSpine keyType.combParts.length key =
        some [data2 .pair (int 1) (data0 .true), string "a"] := by rfl
    rw [fields_eq rfl rfl, spineFields, hsplit, Option.bind_some]
    change (List.mapM (fun part => fieldsIn part.1 part.2) [(_, _), _]).map _ = _
    rw [List.mapM_cons, hinner]
    rfl
  have hkey : render ⟨keyType, key⟩ =
      .ok (.object [("0", .int 1), ("1", .bool true), ("2", .text "a")]) := by
    have hchildren : children ⟨keyType, key⟩ = .ok [("0", ⟨type0 .nat, int 1⟩),
        ("1", ⟨type0 .bool, data0 .true⟩), ("2", ⟨type0 .string, string "a"⟩)] := by
      rw [children, parts_of_fields rfl hfields]
      rfl
    rw [render_object rfl, renderParts_eq_mapM hchildren]
    cbv
  have hchildren : v.children = .ok [(name, ⟨type1 .list (type0 .nat), list [int 7]⟩)] := by
    change (List.mapM v.partName [.keyed ⟨keyType, key⟩ _] >>= fun _ => _) = _
    rw [List.mapM_cons, partName, hkey]
    cbv
  have hrender : v.render = .ok (.object [(name, .array [.int 7])]) := by
    rw [render_object rfl, renderParts_eq_mapM hchildren]
    cbv
  have hheight : v.type.height < 4 := by decide
  obtain ⟨-, -, -, -, -, -, -, hends, -⟩ := access_ends v 4 hfilled hheight
  exact ⟨hfilled, hheight, hends.trans (congrArg some hrender)⟩

end TypedValue

end Michelson
