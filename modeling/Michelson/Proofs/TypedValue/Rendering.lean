/-
# Renderings follow paths

Rendering a value goes down its type as a walk does, but by itself: options and choices are cases of
their own there, and the parts are put under their names or in their order.  A step of a path can
be taken in a rendering as well, to a member of an object or to an item of an array.

The value in an option is rendered as the option is, so going through options does not change the
rendering (`render_unwrap`); of choices this is not true, hence the types without them.  One step
down in a value is one step down in its rendering (`exists_step?_of_render`), as long as the parts
have different names: of two members of one name the last counts, and of two parts the first.

The main statement is `follow?_of_visited`: in the rendering of a value, the path of a part that a
walk visits leads to the rendering of that part.
-/
import Michelson.Proofs.NameMap
import Michelson.Proofs.Text.Decimal
import Michelson.Proofs.TypedValue.ChoiceFree
import Michelson.Proofs.TypedValue.Paths

namespace Michelson

namespace Json

/-- The value that a step of a path leads to: a member of an object, or the item of an array at the
position that the step spells. -/
def step? (name : String) : Json → Option Json
  | object members => NameMap.find? name members
  | array items => (Decimal.unsigned? name).bind fun i => items[i]?
  | _ => none

/-- The value that a path leads to. -/
def follow? (path : String) (j : Json) : Option Json :=
  (TypedValue.segments path).foldlM (fun j name => j.step? name) j

end Json

namespace TypedValue

open Michelson.Expr

variable {v here part child : TypedValue} {ps : List Part} {parts : List (String × TypedValue)}
  {path name : String} {j : Json}

/-! ### Parts side by side with their renderings -/

lemma exists_getElem?_of_forall₂ {α β : Type} {R : α → β → Prop} {as : List α} {bs : List β}
    (h : List.Forall₂ R as bs) {i : Nat} {a : α} (ha : as[i]? = some a) :
    ∃ b, bs[i]? = some b ∧ R a b := by
  induction h generalizing i with
  | nil => simp at ha
  | cons hab _ ih =>
    cases i with
    | zero =>
      obtain rfl : _ = a := by simpa using ha
      exact ⟨_, rfl, hab⟩
    | succ i => exact ih (by simpa using ha)

/-- The parts of a value side by side with their names and what they stand for. -/
lemma forall₂_of_children (hps : v.parts = .ok ps) (h : v.children = .ok parts) :
    List.Forall₂ (fun p c => v.partName p = .ok c.1 ∧ p.child? = some c.2) ps parts := by
  rw [children, hps, Except.ok_bind] at h
  obtain ⟨names, hnames, hzip⟩ := Except.bind_eq_ok_iff.1 h
  cases hzip
  replace hnames := Except.forall₂_of_mapM hnames
  clear hps h
  induction hnames with
  | nil => exact .nil
  | @cons p name ps names hname _ ih =>
    -- a part with a name stands for a value
    cases p with
    | named own child => exact .cons ⟨hname, rfl⟩ ih
    | keyed key child => exact .cons ⟨hname, rfl⟩ ih
    | broken => cases hname

/-- The rendering of a part. -/
def renderPart (v : TypedValue) : Part → Except ShapeFault Json
  | .named _ child => render child
  | .keyed _ child => render child
  | .broken => .error v.mismatch

lemma mapM_attach {α β ε : Type} (f : α → Except ε β) (as : List α) :
    as.attach.mapM (fun a => f a.1) = as.mapM f := by
  change as.attach.mapM (f ∘ Subtype.val) = _
  rw [← List.mapM_map, List.attach_map_subtype_val]

lemma renderParts_of_error {fault : ShapeFault} (h : v.parts = .error fault) :
    renderParts v = .error fault := by
  rw [renderParts]
  split
  · next h' =>
    rw [h] at h'
    cases h'
    rfl
  · next h' =>
    rw [h] at h'
    cases h'

/-- A pair without arguments is not rendered. -/
lemma render_of_isBarePair (hbare : isBarePair v.type) : render v = .error v.mismatch := by
  have hlayout : v.layout = .object := by
    rw [layout, applies_iff.1 (isBarePair_iff.1 hbare).1]
  have hparts : renderParts v = .error v.mismatch := by
    rcases parts_of_isBarePair hbare with hps | ⟨name, hps⟩
    · exact renderParts_of_error hps
    · rw [renderParts]
      split
      · next h =>
        rw [hps] at h
        cases h
      · rw [dif_pos hbare]
  rw [render, hlayout]
  dsimp only
  rw [hparts]
  rfl

lemma renderParts_eq (hps : v.parts = .ok ps) :
    renderParts v = ps.mapM v.partName >>= fun names =>
      ps.mapM v.renderPart >>= fun values => .ok (names.zip values) := by
  rw [renderParts]
  split
  · next h =>
    rw [hps] at h
    cases h
  · next h =>
    rw [hps] at h
    cases h
    split
    · next hbare =>
      -- the only part is the pair itself, which is not rendered
      rcases parts_of_isBarePair hbare with hparts | ⟨name, hparts⟩
      · rw [hps] at hparts
        cases hparts
      · rw [hps] at hparts
        cases hparts
        rw [List.mapM_cons, List.mapM_cons, renderPart, render_of_isBarePair hbare]
        rfl
    -- otherwise the parts come with a proof each, for the recursion to end; the renderings do not
    -- look at it
    · rw [← mapM_attach v.partName, ← mapM_attach v.renderPart]
      dsimp only
      congr 2
      · funext part
        obtain ⟨part, hpart⟩ := part
        cases part with
        | named own child => rfl
        | keyed key child => cases hkey : render key <;> simp [partName, hkey] <;> rfl
        | broken => rfl
      · funext names
        congr 2
        funext part
        obtain ⟨part, hpart⟩ := part
        cases part <;> rfl

/-- The named parts of a value are rendered one after the other. -/
lemma renderParts_eq_mapM (hparts : v.children = .ok parts) :
    renderParts v = parts.mapM fun c => (render c.2).map fun j => (c.1, j) := by
  obtain ⟨ps, hps, -⟩ := exists_of_children hparts
  have hsides := forall₂_of_children hps hparts
  have hnames : ps.mapM v.partName = .ok (parts.map Prod.fst) := by
    clear hps hparts
    induction hsides with
    | nil => rfl
    | cons hc _ ih =>
      rw [List.mapM_cons, hc.1, ih]
      rfl
  rw [renderParts_eq hps, hnames, Except.ok_bind]
  clear hps hparts hnames
  induction hsides with
  | nil => rfl
  | @cons p c ps parts hc _ ih =>
    have hpart : v.renderPart p = render c.2 := by
      cases p <;> cases hc.2 <;> rfl
    rw [List.mapM_cons, List.mapM_cons, hpart, ← ih]
    cases render c.2 with
    | error fault => rfl
    | ok j => cases ps.mapM v.renderPart <;> rfl

lemma children_of_error {fault : ShapeFault} (h : v.parts = .error fault) :
    v.children = .error fault := by
  rw [children, h]
  rfl

/-- The names of the parts come first, then their renderings. -/
lemma renderParts_eq_bind (v : TypedValue) :
    renderParts v = v.children >>= fun cs =>
      cs.mapM fun c => (render c.2).map fun j => (c.1, j) := by
  cases hparts : v.parts with
  | error fault => rw [renderParts_of_error hparts, children_of_error hparts, Except.error_bind]
  | ok ps =>
    cases hnames : ps.mapM v.partName with
    | error fault =>
      rw [renderParts_eq hparts, hnames, children, hparts, Except.ok_bind, hnames]
      rfl
    | ok names =>
      have hchildren : v.children = .ok (names.zip (ps.filterMap Part.child?)) := by
        rw [children, hparts, Except.ok_bind, hnames]
        rfl
      rw [renderParts_eq_mapM hchildren, hchildren, Except.ok_bind]

/-- A value that is rendered has its named parts side by side with their renderings. -/
lemma forall₂_of_renderParts {members : List (String × Json)} (hparts : v.children = .ok parts)
    (h : renderParts v = .ok members) :
    List.Forall₂ (fun c m => m.1 = c.1 ∧ render c.2 = .ok m.2) parts members := by
  rw [renderParts_eq_mapM hparts] at h
  refine (Except.forall₂_of_mapM h).imp fun c m hm => ?_
  obtain ⟨j, hj, rfl⟩ := Except.map_eq_ok_iff.1 hm
  exact ⟨rfl, hj⟩

lemma render_leaf (h : v.layout = .leaf) : render v = v.renderLeaf := by
  rw [render, h]

lemma render_object (h : v.layout = .object) : render v = (renderParts v).map .ofMembers := by
  rw [render, h]
  cases renderParts v <;> rfl

lemma render_array (h : v.layout = .array) :
    render v = (renderParts v).map fun members => .array (members.map Prod.snd) := by
  rw [render, h]
  cases renderParts v <;> rfl

lemma map_snd_mapM {α β γ ε : Type} (f : γ → Except ε β) (cs : List (α × γ)) :
    (cs.mapM fun c => (f c.2).map fun b => (c.1, b)).map (List.map Prod.snd) =
      cs.mapM fun c => f c.2 := by
  induction cs with
  | nil => rfl
  | cons c cs ih =>
    rw [List.mapM_cons, List.mapM_cons, ← ih]
    cases f c.2 with
    | error fault => rfl
    | ok b => cases cs.mapM fun c => (f c.2).map fun b => (c.1, b) <;> rfl

lemma render_object_eq_bind (h : v.layout = .object) :
    render v = v.children >>= fun cs =>
      (cs.mapM fun c => (render c.2).map fun j => (c.1, j)) >>= fun members =>
        .ok (.ofMembers members) := by
  rw [render_object h, renderParts_eq_bind]
  cases v.children with
  | error fault => rfl
  | ok cs =>
    rw [Except.ok_bind, Except.ok_bind]
    cases cs.mapM fun c => (render c.2).map fun j => (c.1, j) <;> rfl

lemma render_array_eq_bind (h : v.layout = .array) :
    render v = v.children >>= fun cs =>
      (cs.mapM fun c => render c.2) >>= fun items => .ok (.array items) := by
  rw [render_array h, renderParts_eq_bind]
  cases v.children with
  | error fault => rfl
  | ok cs =>
    rw [Except.ok_bind, Except.ok_bind, ← map_snd_mapM]
    cases cs.mapM fun c => (render c.2).map fun j => (c.1, j) <;> rfl

lemma render_option_some (h : v.layout = .option) (hvalue : v.value.prim? = some (.data .some)) :
    render v = v.content 0 >>= render := by
  rw [render, h]
  simp only [hvalue]
  cases v.content 0 <;> rfl

lemma render_option_none (h : v.layout = .option) (hvalue : v.value.prim? = some (.data .none)) :
    render v = .ok .null := by
  rw [render, h]
  simp only [hvalue]

lemma render_option_other (h : v.layout = .option) (hsome : v.value.prim? ≠ some (.data .some))
    (hnone : v.value.prim? ≠ some (.data .none)) : render v = .error v.mismatch := by
  rw [render, h]
  simp only

lemma render_choice_none (h : v.layout = .choice) (hside : v.choiceSide? = none) :
    render v = .error v.mismatch := by
  rw [render, h]
  simp only [hside]

lemma render_choice_some {side : Nat × String} (h : v.layout = .choice)
    (hside : v.choiceSide? = some side) :
    render v = v.content side.1 >>= fun r =>
      render r >>= fun j => .ok (.object [(r.type.label?.getD side.2, j)]) := by
  rw [render, h]
  simp only [hside]
  cases v.content side.1 <;> rfl

/-! ### One step -/

/-- A value with parts is rendered as an object, or as an array if its parts are named by their
positions. -/
lemma layout_of_mem_parts (hps : v.parts = .ok ps) {p : Part} (hp : p ∈ ps) :
    v.layout = .object ∨
      v.layout = .array ∧ ∀ (i : Nat) q, ps[i]? = some q → ∃ c, q = .named (toString i) c := by
  cases divides_of_parts hps with
  | pair hv _ => exact .inl (by simp [layout, hv, prim?])
  | items hv hprim _ =>
    refine .inr ⟨by rcases hprim with rfl | rfl <;> simp [layout, hv, prim?], fun i q hq => ?_⟩
    rw [List.getElem?_mapIdx, Option.map_eq_some_iff] at hq
    obtain ⟨x, -, rfl⟩ := hq
    exact ⟨_, rfl⟩
  | entries hv hprim hvalue =>
    exact .inl (by rcases hprim with rfl | rfl <;> simp [layout, hv, hvalue, prim?, isSequence])
  | none => exact absurd hp List.not_mem_nil

/-- The rendering of a value with parts has the rendering of each part one step down. -/
lemma exists_step?_of_render (hj : render here = .ok j) (hparts : here.children = .ok parts)
    (hnodup : (parts.map Prod.fst).Nodup) (hmem : (name, part) ∈ parts) :
    ∃ j', j.step? name = some j' ∧ render part = .ok j' := by
  obtain ⟨ps, hps, -⟩ := exists_of_children hparts
  have hsides := forall₂_of_children hps hparts
  obtain ⟨i, hi⟩ := List.mem_iff_getElem?.1 hmem
  obtain ⟨p, hp, hname, -⟩ := exists_getElem?_of_forall₂ hsides.flip hi
  rcases layout_of_mem_parts hps (List.mem_of_getElem? hp) with hlayout | ⟨hlayout, hpositions⟩
  · -- an object has the member of this name
    rw [render_object hlayout] at hj
    obtain ⟨members, hmembers, rfl⟩ := Except.map_eq_ok_iff.1 hj
    have hrendered := forall₂_of_renderParts hparts hmembers
    have hnames : List.Forall₂ Eq (parts.map Prod.fst) (members.map Prod.fst) := by
      rw [List.forall₂_map_left_iff, List.forall₂_map_right_iff]
      exact hrendered.imp fun c m h => h.1.symm
    rw [List.forall₂_eq_eq_eq] at hnames
    obtain ⟨⟨name', j'⟩, hmember, rfl, hrender⟩ := exists_getElem?_of_forall₂ hrendered hi
    refine ⟨j', ?_, hrender⟩
    exact NameMap.find?_ofList (hnames ▸ hnodup) (List.mem_of_getElem? hmember)
  · -- an array has the item at this position
    rw [render_array hlayout] at hj
    obtain ⟨members, hmembers, rfl⟩ := Except.map_eq_ok_iff.1 hj
    obtain ⟨c, rfl⟩ := hpositions i p hp
    obtain rfl : toString i = name := Except.ok.inj hname
    obtain ⟨⟨name', j'⟩, hmember, -, hrender⟩ :=
      exists_getElem?_of_forall₂ (forall₂_of_renderParts hparts hmembers) hi
    refine ⟨j', ?_, hrender⟩
    rw [Json.step?, Decimal.unsigned?_toString, Option.bind_some, List.getElem?_map, hmember]
    rfl

/-! ### Options -/

/-- A type without choices is looked through as an option only. -/
lemma side?_of_isChoiceFree {side : Nat} (hfree : v.type.isChoiceFree) (h : v.side? = some side) :
    side = 0 ∧ v.type.prim? = some (.type .option) ∧ v.value.prim? = some (.data .some) := by
  unfold side? at h
  split at h
  · next htype hvalue =>
    cases h
    exact ⟨rfl, htype, hvalue⟩
  · next htype _ => exact absurd htype (prim?_ne_or_of_isChoiceFree hfree)
  · next htype _ => exact absurd htype (prim?_ne_or_of_isChoiceFree hfree)
  · cases h

lemma isChoiceFree_content {r : TypedValue} (hfree : v.type.isChoiceFree)
    (htype : v.type.prim? = some (.type .option)) (h : v.content 0 = .ok r) :
    r.type.isChoiceFree := by
  obtain ⟨type, value⟩ := v
  unfold content at h
  split at h
  · next t x ht _ =>
    cases h
    cases type with
    | literal l u => cases htype
    | seq items u => cases htype
    | app p args annots w u =>
      obtain rfl : p = .type .option := Option.some.inj htype
      exact isChoiceFree_arg hfree (by decide) (by decide) (List.mem_of_getElem? ht)
  · cases h

lemma render_of_content {r : TypedValue} (htype : v.type.prim? = some (.type .option))
    (hvalue : v.value.prim? = some (.data .some)) (h : v.content 0 = .ok r) :
    render v = render r := by
  have hlayout : v.layout = .option := by rw [layout, htype]
  rw [render, hlayout]
  simp only [hvalue]
  split
  · next h' =>
    rw [h] at h'
    cases h'
    rfl
  · next h' =>
    rw [h] at h'
    cases h'

/-- What is inside the options around it is rendered as the whole. -/
lemma render_unwrap {r : TypedValue} (hfree : v.type.isChoiceFree) (h : v.unwrap = .ok r) :
    r.type.isChoiceFree ∧ render v = render r := by
  fun_induction unwrap v with
  | case1 v hside =>
    cases h
    exact ⟨hfree, rfl⟩
  | case2 v side hside inner hinner ih =>
    obtain ⟨rfl, htype, hvalue⟩ := side?_of_isChoiceFree hfree hside
    rw [render_of_content htype hvalue hinner]
    exact ih (isChoiceFree_content hfree htype hinner) h
  | case3 => cases h

/-! ### Whole paths -/

/-- In the rendering of the whole, the path of a value that is reached leads to its rendering. -/
lemma exists_follow?_of_reaches (hfree : v.type.isChoiceFree) (hj : render v = .ok j)
    {levels : List (List String)} (h : v.Reaches levels path here)
    (hclear : ∀ names ∈ levels, AreClear names) :
    here.type.isChoiceFree ∧ ∃ j', j.follow? path = some j' ∧ render here = .ok j' := by
  induction h with
  | top htop =>
    obtain ⟨htopFree, hrender⟩ := render_unwrap hfree htop
    exact ⟨htopFree, j, rfl, hrender ▸ hj⟩
  | @part levels path name here part child parts _ hparts hmem hchild ih =>
    obtain ⟨habove, hnames⟩ := List.forall_mem_append.1 hclear
    have hlast : AreClear (parts.map Prod.fst) := List.forall_mem_singleton.1 hnames
    have hname : name ∈ parts.map Prod.fst := List.mem_map_of_mem hmem
    obtain ⟨hhereFree, j', hfollow, hhere⟩ := ih habove
    obtain ⟨j'', hstep, hpart⟩ := exists_step?_of_render hhere hparts hlast.nodup hmem
    have hpartFree : part.type.isChoiceFree := by
      obtain ⟨ps, hps, hsnd⟩ := exists_of_children hparts
      have hin : part ∈ ps.filterMap Part.child? := hsnd ▸ List.mem_map_of_mem hmem
      obtain ⟨p, hp, hc⟩ := List.mem_filterMap.1 hin
      exact isChoiceFree_parts hhereFree hps hp hc
    obtain ⟨hchildFree, hrender⟩ := render_unwrap hpartFree hchild
    refine ⟨hchildFree, j'', ?_, hrender ▸ hpart⟩
    rw [Json.follow?] at hfollow ⊢
    rw [segments_below (hlast.ne_empty name hname) (hlast.no_dot name hname), List.foldlM_append,
      hfollow]
    simpa using hstep

/-- Following a path commutes with rendering.  Let there be no choice in the type of a value, the
types of the keys of maps apart, and let the names of the parts be different at every level, not
empty and without dots.  If the value can be rendered, then in its rendering the path of every part
that a walk visits, wherever the walk goes on, leads to the rendering of that part. -/
theorem follow?_of_visited (v : TypedValue) (j : Json) (hfree : v.type.isChoiceFree)
    (hnames : ∀ levels path here, v.Reaches levels path here → ∀ names ∈ levels,
      names.Nodup ∧ ∀ name ∈ names, name ≠ "" ∧ '.' ∉ name.toList)
    (hj : v.render = .ok j) :
    (∀ skip, tour (fun _ => skip) v = walk skip v) ∧
      ∀ visitor, ∀ visit ∈ (tour visitor v).visited,
        ∃ j', j.follow? visit.1 = some j' ∧ visit.2.render = .ok j' := by
  refine ⟨fun skip => tour_eq_walk skip v, fun visitor visit hvisit => ?_⟩
  obtain ⟨levels, hreach⟩ := reaches_of_mem_tour hvisit
  have hclear : ∀ names ∈ levels, AreClear names := fun names hlevel =>
    areClear_iff.2 (hnames levels visit.1 visit.2 hreach names hlevel)
  exact (exists_follow?_of_reaches hfree hj hreach hclear).2

/-- An optional map from texts to lists of numbers.  The list is a member of the rendering, and the
number in it is an item of that member. -/
theorem follow?_of_visited_ledger :
    let numbers := type1 .list (type0 .nat)
    let ledger := type2 .map (type0 .string) numbers
    let entries := list [data2 .elt (string "a") (list [int 7])]
    let v : TypedValue := ⟨type1 .option ledger, data1 .some entries⟩
    let j := Json.object [("a", .array [.int 7])]
    v.type.isChoiceFree ∧
      (∀ levels path here, v.Reaches levels path here → ∀ names ∈ levels,
        names.Nodup ∧ ∀ name ∈ names, name ≠ "" ∧ '.' ∉ name.toList) ∧
      v.render = .ok j ∧
      (walk (fun _ _ => false) v).visited =
        [("a", ⟨numbers, list [int 7]⟩), ("a.0", ⟨type0 .nat, int 7⟩)] ∧
      j.follow? "a" = some (.array [.int 7]) ∧ j.follow? "a.0" = some (.int 7) := by
  intro numbers ledger entries v j
  have hv : v.unwrap = .ok ⟨ledger, entries⟩ := by cbv
  have hlist : ∀ x, unwrap ⟨numbers, x⟩ = .ok ⟨numbers, x⟩ := fun x => unwrap_of_side? rfl
  have hnat : ∀ x, unwrap ⟨type0 .nat, x⟩ = .ok ⟨type0 .nat, x⟩ := fun x => unwrap_of_side? rfl
  have hentries : (⟨ledger, entries⟩ : TypedValue).children =
      .ok [("a", ⟨numbers, list [int 7]⟩)] := by cbv
  have hitems : (⟨numbers, list [int 7]⟩ : TypedValue).children =
      .ok [("0", ⟨type0 .nat, int 7⟩)] := by cbv
  have hleaf : ∀ x, children ⟨type0 .nat, x⟩ = .ok [] := fun x => rfl
  -- the values that are reached are in one line, and the names of their parts are clear
  have hreach : ∀ levels path here, v.Reaches levels path here →
      (∀ names ∈ levels, names.Nodup ∧ ∀ name ∈ names, name ≠ "" ∧ '.' ∉ name.toList) ∧
        (here = ⟨ledger, entries⟩ ∨ here = ⟨numbers, list [int 7]⟩ ∨
          here = ⟨type0 .nat, int 7⟩) := by
    intro levels path here h
    induction h with
    | top htop =>
      rw [hv] at htop
      cases htop
      exact ⟨fun _ hnil => absurd hnil List.not_mem_nil, .inl rfl⟩
    | part _ hchildren hmem hchild ih =>
      obtain ⟨habove, rfl | rfl | rfl⟩ := ih
      · rw [hentries] at hchildren
        cases hchildren
        obtain ⟨rfl, rfl⟩ := Prod.mk.inj (List.mem_singleton.1 hmem)
        rw [hlist] at hchild
        cases hchild
        exact ⟨List.forall_mem_append.2 ⟨habove, by decide⟩, .inr (.inl rfl)⟩
      · rw [hitems] at hchildren
        cases hchildren
        obtain ⟨rfl, rfl⟩ := Prod.mk.inj (List.mem_singleton.1 hmem)
        rw [hnat] at hchild
        cases hchild
        exact ⟨List.forall_mem_append.2 ⟨habove, by decide⟩, .inr (.inr rfl)⟩
      · rw [hleaf] at hchildren
        cases hchildren
        cases hmem
  have hclear := fun levels path here h => (hreach levels path here h).1
  have hnumber : render ⟨type0 .nat, int 7⟩ = .ok (.int 7) := by
    rw [render]
    rfl
  have hnumbers : render ⟨numbers, list [int 7]⟩ = .ok (.array [.int 7]) := by
    rw [render_array rfl, renderParts_eq_mapM hitems, List.mapM_cons, hnumber]
    rfl
  have hrender : v.render = .ok j := by
    rw [render_of_content rfl rfl rfl, render_object rfl, renderParts_eq_mapM hentries,
      List.mapM_cons, hnumbers]
    rfl
  have hvisited : (walk (fun _ _ => false) v).visited =
      [("a", ⟨numbers, list [int 7]⟩), ("a.0", ⟨type0 .nat, int 7⟩)] := by
    rw [walk, hv]
    simp only [walkBelow_of_ok rfl hentries, walkBelow_of_ok rfl hitems, walkBelow_of_nil (hleaf _),
      walkParts, walkPart, List.foldr_cons, List.foldr_nil, hlist, hnat]
    rfl
  obtain ⟨htour, hfollow⟩ := follow?_of_visited v j rfl hclear hrender
  have hvisits := hfollow fun _ _ _ => false
  rw [htour, hvisited] at hvisits
  obtain ⟨⟨j', hj', harray⟩, ⟨j'', hj'', hitem⟩, -⟩ := by
    simpa only [List.forall_mem_cons] using hvisits
  rw [hnumbers, Except.ok.injEq] at harray
  rw [hnumber, Except.ok.injEq] at hitem
  exact ⟨rfl, hclear, hrender, hvisited, harray ▸ hj', hitem ▸ hj''⟩

end TypedValue

end Michelson
