/-
# A walk meets what the descent meets

A walk finds the fields of a pair along the spine of its type, names them and merges pairs without a
label; aligning puts all leaves in one queue.  Both end at the same places: the values of types that
are no pair, list or map and that a walk visits are the values of the items (`ends_walk_of_fits`).

Both are compared with the descent through the type and the value.  The invariant for one part
(`Descends`) says what a walk over the part ends at when no fault stops it.  It holds of a container
when it holds of all its children (`descends_of_children`), and the fields of a pair are those of
its two parts.
-/
import Michelson.Proofs.Expr.Traversal
import Michelson.Proofs.Storage.Descent
import Michelson.Proofs.TypedValue.Fields

namespace Michelson

namespace TypedValue

open Michelson.Expr Storage

/-- Whether the values of a type are gone through without being an end: pairs, lists and maps. -/
def isNesting (type : Expr) : Bool :=
  type.applies (.type .pair) || type.applies (.type .list) || type.applies (.type .map)

/-- Skips what is inside sets. -/
def skipSets (_ : String) (v : TypedValue) : Bool := v.type.applies (.type .set)

lemma isNesting_iff {type : Expr} : isNesting type ↔ type.prim? = some (.type .pair) ∨
    type.prim? = some (.type .list) ∨ type.prim? = some (.type .map) := by
  simp [isNesting, applies, or_assoc]

lemma not_skipSets_of_isNesting {path : String} {v : TypedValue} (h : isNesting v.type) :
    ¬ skipSets path v := by
  rcases isNesting_iff.1 h with h | h | h <;> simp [skipSets, applies, h]

lemma side?_of_isNesting {v : TypedValue} (h : isNesting v.type) : v.side? = none := by
  rcases isNesting_iff.1 h with h | h | h <;> simp [side?, h]

/-! ### Walks part by part -/

namespace Walk

/-- The values that a walk visits and that are no pair, list or map. -/
def ends (w : Walk) : List TypedValue := (w.visited.map Prod.snd).filter fun v => !isNesting v.type

variable {w next : Walk}

lemma andThen_fault_eq_none_iff :
    (w.andThen next).fault = none ↔ w.fault = none ∧ next.fault = none := by
  rw [andThen]
  cases h : w.fault <;> simp [h]

lemma ends_andThen (h : w.fault = none) : (w.andThen next).ends = w.ends ++ next.ends := by
  simp [ends, andThen, h]

@[simp] lemma fault_visit (path : String) (v : TypedValue) (w : Walk) :
    (visit path v w).fault = w.fault := rfl

lemma ends_visit_of_isNesting {path : String} {v : TypedValue} (h : isNesting v.type) (w : Walk) :
    (visit path v w).ends = w.ends := by
  simp [ends, visit, h]

lemma ends_visit_of_not_isNesting {path : String} {v : TypedValue} (h : isNesting v.type = false)
    (w : Walk) : (visit path v w).ends = v :: w.ends := by
  simp [ends, visit, h]

@[simp] lemma failed_andThen (fault : ShapeFault) (next : Walk) :
    (failed fault).andThen next = failed fault := rfl

@[simp] lemma done_andThen (next : Walk) : done.andThen next = next := rfl

@[simp] lemma andThen_done (w : Walk) : w.andThen done = w := by
  obtain ⟨visited, fault⟩ := w
  cases fault <;> simp [andThen, done]

@[simp] lemma visit_andThen (path : String) (v : TypedValue) (w next : Walk) :
    (visit path v w).andThen next = visit path v (w.andThen next) := by
  simp only [visit, andThen]
  split <;> rfl

end Walk

/-- The walk over one part: what it holds is visited, and then what is below. -/
def walkPart (skip : String → TypedValue → Bool) (path : String) (part : TypedValue) : Walk :=
  match part.unwrap with
  | .error fault => .failed fault
  | .ok child =>
    .visit path child (if skip path child then .done else walkBelow skip path child)

/-- The walk over some parts, one after the other. -/
def walkParts (skip : String → TypedValue → Bool) (path : String)
    (parts : List (String × TypedValue)) : Walk :=
  parts.foldr (fun part rest => (walkPart skip (below path part.1) part.2).andThen rest) .done

variable {skip : String → TypedValue → Bool} {path : String}

lemma walkBelow_of_error {v : TypedValue} {fault : ShapeFault} (h : v.children = .error fault) :
    walkBelow skip path v = .failed fault := by
  rw [walkBelow]
  split
  · next h' =>
    rw [h] at h'
    cases h'
    rfl
  · next h' =>
    rw [h] at h'
    cases h'

/-- A walk goes through the parts one after the other, or around a pair without arguments. -/
lemma walkBelow_of_children {v : TypedValue} {parts : List (String × TypedValue)}
    (h : v.children = .ok parts) :
    walkBelow skip path v =
      if isBarePair v.type then
        parts.foldr (fun part rest => (walkRound skip part.1 part.2 maxRounds path).andThen rest) .done
      else walkParts skip path parts := by
  rw [walkBelow]
  split
  · next h' =>
    rw [h] at h'
    cases h'
  · next h' =>
    rw [h] at h'
    cases h'
    split
    · rfl
    · -- the parts come with a proof each, for the recursion to end; the walk does not look at it
      rw [walkParts]
      refine Eq.trans ?_ List.foldr_attach
      congr 1
      funext part rest
      obtain ⟨⟨name, part⟩, hpart⟩ := part
      simp only [walkPart]
      split
      · next hunwrap => rw [hunwrap, Walk.failed_andThen]
      · next hunwrap =>
        rw [hunwrap]
        simp only [Walk.visit_andThen]
        split
        · rw [Walk.done_andThen]
        · rfl

lemma walkBelow_of_ok {v : TypedValue} {parts : List (String × TypedValue)}
    (hbare : isBarePair v.type = false) (h : v.children = .ok parts) :
    walkBelow skip path v = walkParts skip path parts := by
  rw [walkBelow_of_children h, hbare, if_neg Bool.false_ne_true]

lemma walkBelow_of_nil {v : TypedValue} (h : v.children = .ok []) :
    walkBelow skip path v = .done := by
  rw [walkBelow_of_children h]
  split <;> rfl

lemma walkBelow_of_isBarePair {v part : TypedValue} {name : String} (hbare : isBarePair v.type)
    (h : v.children = .ok [(name, part)]) :
    walkBelow skip path v = walkRound skip name part maxRounds path := by
  rw [walkBelow_of_children h, if_pos hbare]
  exact Walk.andThen_done _

/-! ### Walks and descents -/

/-- The values that the descent through a typed value meets, with their types. -/
def met (v : TypedValue) : List TypedValue :=
  (descent v.type v.value).map fun place => ⟨place.2.1, place.2.2⟩

/-- A walk over this part ends at what the descent meets, unless a fault stops it. -/
def Descends (v : TypedValue) : Prop :=
  ∀ path, (walkPart skipSets path v).fault = none → (walkPart skipSets path v).ends = met v

/-- Parts that make up a value: the descent through the value is that through the parts. -/
def Covers (parts : List TypedValue) (v : TypedValue) : Prop :=
  (∀ part ∈ parts, Descends part) ∧ parts.flatMap met = met v

variable {v : TypedValue}

lemma Covers.singleton (h : Descends v) : Covers [v] v :=
  ⟨List.forall_mem_singleton.2 h, List.flatMap_singleton met v⟩

lemma Covers.append {front back : List TypedValue} {x y : TypedValue} (hfront : Covers front x)
    (hback : Covers back y) (hmet : met v = met x ++ met y) : Covers (front ++ back) v := by
  constructor
  · exact List.forall_mem_append.2 ⟨hfront.1, hback.1⟩
  · rw [List.flatMap_append, hfront.2, hback.2, hmet]

/-- A walk over some parts ends at what the descents through them meet. -/
lemma ends_walkParts {parts : List (String × TypedValue)} (h : ∀ part ∈ parts, Descends part.2)
    (hfault : (walkParts skipSets path parts).fault = none) :
    (walkParts skipSets path parts).ends = (parts.map Prod.snd).flatMap met := by
  induction parts with
  | nil => rfl
  | cons part rest ih =>
    obtain ⟨hpart, hrest⟩ := Walk.andThen_fault_eq_none_iff.1 hfault
    calc _ = (walkPart skipSets (below path part.1) part.2).ends ++
          (walkParts skipSets path rest).ends := Walk.ends_andThen hpart
      _ = met part.2 ++ (rest.map Prod.snd).flatMap met := by
        rw [h part List.mem_cons_self _ hpart, ih (fun c hc => h c (List.mem_cons_of_mem _ hc)) hrest]

lemma unwrap_of_side? (h : v.side? = none) : v.unwrap = .ok v := by
  rw [unwrap, h]

lemma unwrap_of_content {r : TypedValue} {side : Nat} (h : v.side? = some side)
    (hr : v.content side = .ok r) : v.unwrap = r.unwrap := by
  rw [unwrap, h]
  simp only
  split
  · next hr' =>
    rw [hr] at hr'
    cases hr'
    rfl
  · next hr' =>
    rw [hr] at hr'
    cases hr'

lemma walkPart_of_content {r : TypedValue} {side : Nat} (h : v.side? = some side)
    (hr : v.content side = .ok r) : walkPart skip path v = walkPart skip path r := by
  rw [walkPart, unwrap_of_content h hr, ← walkPart]

/-- What an option or a choice holds is gone through in its place. -/
lemma descends_of_content {r : TypedValue} {side : Nat} (hside : v.side? = some side)
    (hr : v.content side = .ok r) (hmet : met v = met r) (h : Descends r) : Descends v := by
  intro path hfault
  rw [walkPart_of_content hside hr] at hfault ⊢
  rw [h path hfault, hmet]

lemma walkPart_of_side? (h : v.side? = none) : walkPart skip path v =
    .visit path v (if skip path v then .done else walkBelow skip path v) := by
  rw [walkPart, unwrap_of_side? h]

lemma walkPart_of_isNesting (h : isNesting v.type) :
    walkPart skipSets path v = .visit path v (walkBelow skipSets path v) := by
  rw [walkPart_of_side? (side?_of_isNesting h), if_neg (not_skipSets_of_isNesting h)]

/-- A value that is passed on the way down is gone through as its children are. -/
lemma descends_of_children (hnesting : isNesting v.type) (hbare : isBarePair v.type = false)
    (h : ∀ cs, v.children = .ok cs → Covers (cs.map Prod.snd) v) : Descends v := by
  intro path hfault
  rw [walkPart_of_isNesting hnesting] at hfault ⊢
  rw [Walk.ends_visit_of_isNesting hnesting]
  match hcs : v.children with
  -- a value whose parts do not fit, or a key without a name, is a fault of the walk
  | .error fault =>
    rw [walkBelow_of_error hcs] at hfault
    cases hfault
  | .ok cs =>
    obtain ⟨hdescends, hmet⟩ := h cs hcs
    rw [walkBelow_of_ok hbare hcs] at hfault ⊢
    rw [ends_walkParts (fun c hc => hdescends _ (List.mem_map_of_mem hc)) hfault, hmet]

/-- A value without children, or one whose children are skipped, is an end. -/
lemma descends_of_end (hside : v.side? = none) (hnesting : isNesting v.type = false)
    (h : ¬ v.type.applies (.type .set) → v.children = .ok []) (hmet : met v = [v]) :
    Descends v := by
  intro path hfault
  rw [walkPart_of_side? hside, Walk.ends_visit_of_not_isNesting hnesting, hmet]
  split
  · rfl
  · next hset =>
    rw [walkBelow_of_nil (h hset)]
    rfl

/-! ### Walks without a fault -/

/-- No fault stops a walk over this part. -/
def Passes (skip : String → TypedValue → Bool) (v : TypedValue) : Prop :=
  ∀ path, (walkPart skip path v).fault = none

lemma walkParts_fault_eq_none_iff {parts : List (String × TypedValue)} :
    (walkParts skip path parts).fault = none ↔
      ∀ part ∈ parts, (walkPart skip (below path part.1) part.2).fault = none := by
  induction parts with
  | nil => simp [walkParts, Walk.done]
  | cons part rest ih =>
    rw [List.forall_mem_cons, ← ih, ← Walk.andThen_fault_eq_none_iff]
    rfl

lemma passes_of_content {r : TypedValue} {side : Nat} (hside : v.side? = some side)
    (hr : v.content side = .ok r) (h : Passes skip r) : Passes skip v := by
  intro path
  rw [walkPart_of_content hside hr]
  exact h path

lemma passes_of_children {cs : List (String × TypedValue)} (hside : v.side? = none)
    (hbare : isBarePair v.type = false) (hcs : v.children = .ok cs) (h : ∀ c ∈ cs, Passes skip c.2) : Passes skip v := by
  intro path
  rw [walkPart_of_side? hside, walkBelow_of_ok hbare hcs, Walk.fault_visit]
  split
  · rfl
  · exact walkParts_fault_eq_none_iff.2 fun c hc => h c hc (below path c.1)

lemma passes_of_end (hside : v.side? = none) (h : v.children = .ok []) : Passes skip v := by
  intro path
  rw [walkPart_of_side? hside, walkBelow_of_nil h]
  split <;> rfl

/-! ### Fitting values -/

/-- Every application in a tree is that of a type. -/
def IsTypeTree (type : Expr) : Prop := ∀ n ∈ type.nodes, ∀ p, n.prim? = some p → p.isType

section

variable {p : Primitive} {args : List Expr} {annots : List String} {w u : Bool} {type value : Expr}

lemma isTypeTree_app_iff :
    IsTypeTree (app p args annots w u) ↔ p.isType ∧ ∀ a ∈ args, IsTypeTree a := by
  rw [IsTypeTree, forall_mem_nodes]
  simp [prim?, Expr.args, IsTypeTree]

lemma IsTypeTree.arg (h : IsTypeTree (app p args annots w u)) {a : Expr} (ha : a ∈ args) :
    IsTypeTree a :=
  (isTypeTree_app_iff.1 h).2 a ha

lemma IsTypeTree.isType (h : IsTypeTree (app p args annots w u)) : p.isType :=
  (isTypeTree_app_iff.1 h).1

lemma eq_pair_of_isType (hp : p.isType) (h : p.isPair) : p = .type .pair := by
  unfold Primitive.isPair at h
  split at h
  · cases hp
  · rfl
  · cases h

lemma IsTypeTree.applies_pair (h : IsTypeTree type) (hp : type.isPair) :
    type.applies (.type .pair) := by
  cases type with
  | literal l u => cases hp
  | seq items u => cases hp
  | app p args annots w u =>
    rw [eq_pair_of_isType h.isType hp]
    rfl

end

/-- A typed value that a walk goes through as the descent does, as a part of its own and, if it is
a pair, by its fields. -/
structure Agrees (type value : Expr) : Prop where
  part : Descends ⟨type, value⟩
  fields : ∀ fs, fields type value = some fs → Covers fs ⟨type, value⟩

lemma Agrees.of_not_isPair {type value : Expr} (hp : type.isPair = false)
    (h : Descends ⟨type, value⟩) : Agrees type value where
  part := h
  fields := by
    intro fs hfs
    rw [fields_of_not_isPair hp] at hfs
    cases hfs

lemma Agrees.covers {type value : Expr} (h : Agrees type value) {fs : List TypedValue}
    (hfs : fieldsIn type value = some fs) : Covers fs ⟨type, value⟩ := by
  rw [fieldsIn] at hfs
  split at hfs
  · exact h.fields fs hfs
  · cases hfs
    exact .singleton h.part

lemma covers_elements {a : Expr} {more elements : List Expr} {annots : List String} {w u u' : Bool}
    (h : ∀ x ∈ elements, Descends ⟨a, x⟩) :
    Covers (elements.map fun x => ⟨a, x⟩)
      ⟨app (.type .list) (a :: more) annots w u, seq elements u'⟩ := by
  constructor
  · exact List.forall_mem_map.2 h
  · rw [List.flatMap_map, met, descent, List.map_flatMap]
    rfl

lemma covers_entries {a b : Expr} {more entries : List Expr} {annots : List String} {w u u' : Bool}
    (hentries : ∀ e ∈ entries, IsEntry e)
    (h : ∀ e ∈ entries, ∀ x, e.arg? 1 = some x → Descends ⟨b, x⟩) :
    Covers (entries.filterMap fun e => (entry a b e).child?)
      ⟨app (.type .map) (a :: b :: more) annots w u, seq entries u'⟩ := by
  constructor
  · intro part hpart
    obtain ⟨e, he, hchild⟩ := List.mem_filterMap.1 hpart
    obtain ⟨key, x, _, _, _, rfl⟩ := hentries e he
    cases hchild
    exact h _ he x rfl
  · rw [met, descent, List.map_flatMap]
    induction entries with
    | nil => rfl
    | cons e rest ih =>
      obtain ⟨key, x, _, _, _, rfl⟩ := hentries e List.mem_cons_self
      have hrest := ih (fun e he => hentries e (List.mem_cons_of_mem _ he))
        fun e he => h e (List.mem_cons_of_mem _ he)
      -- an entry stands for its value
      change met ⟨b, x⟩ ++ (rest.filterMap fun e => (entry a b e).child?).flatMap met = _
      rw [hrest]
      rfl

section

variable {p : Primitive} {args : List Expr} {annots : List String} {w u : Bool} {value : Expr}

lemma ne_of_not_isStructural (h : isStructural p = false) {q : Primitive} (hq : isStructural q) :
    p ≠ q := by
  rintro rfl
  rw [h] at hq
  cases hq

lemma side?_leaf (h : isStructural p = false) : side? ⟨app p args annots w u, value⟩ = none := by
  rw [side?]
  split
  · next hprim _ => exact absurd (Option.some.inj hprim) (ne_of_not_isStructural h rfl)
  · next hprim _ => exact absurd (Option.some.inj hprim) (ne_of_not_isStructural h rfl)
  · next hprim _ => exact absurd (Option.some.inj hprim) (ne_of_not_isStructural h rfl)
  · rfl

lemma children_leaf (h : isStructural p = false) (hset : p ≠ .type .set) :
    children ⟨app p args annots w u, value⟩ = .ok [] := by
  refine children_of_parts_nil ?_
  rw [parts]
  split
  · next heq => exact absurd (app.inj heq).1 (ne_of_not_isStructural h rfl)
  · next heq => exact absurd (app.inj heq).1 (ne_of_not_isStructural h rfl)
  · next heq => exact absurd (app.inj heq).1 hset
  · next heq => exact absurd (app.inj heq).1 (ne_of_not_isStructural h rfl)
  · next heq => exact absurd (app.inj heq).1 (ne_of_not_isStructural h rfl)
  · rfl

lemma descends_leaf (h : isStructural p = false) : Descends ⟨app p args annots w u, value⟩ := by
  have hpair : p ≠ .type .pair := ne_of_not_isStructural h rfl
  have hlist : p ≠ .type .list := ne_of_not_isStructural h rfl
  have hmap : p ≠ .type .map := ne_of_not_isStructural h rfl
  refine descends_of_end (side?_leaf h) ?_ (fun hset => children_leaf h ?_) ?_
  · simp [isNesting, applies, prim?, hpair, hlist, hmap]
  · rintro rfl
    exact hset rfl
  · rw [met, descent_leaf h]
    rfl

end

/-- A value that fits a tree of types is gone through by a walk as by the descent. -/
theorem agrees_of_fits {type value : Expr} (htypes : IsTypeTree type) (h : Fits type value) :
    Agrees type value := by
  induction h with
  | @pair p a b x y annots annots' w u w' u' _ _ _ iha ihb =>
    -- the fields are needed for the pair as a part of its own and for a pair that it is merged into
    have hb : IsTypeTree b := htypes.arg (by simp)
    have hfields : ∀ fs, fields (app (.type .pair) [a, b] annots w u)
        (app p [x, y] annots' w' u') = some fs →
          Covers fs ⟨app (.type .pair) [a, b] annots w u, app p [x, y] annots' w' u'⟩ := by
      intro fs hfs
      obtain ⟨front, back, hfront, hback, rfl⟩ := exists_of_fields_pair hb.applies_pair hfs
      exact .append ((iha (htypes.arg (by simp))).covers hfront) ((ihb hb).covers hback)
        List.map_append
    exact ⟨descends_of_children rfl rfl fun cs hcs => hfields _ (fields_of_children_pair hcs),
      hfields⟩
  | none =>
    refine .of_not_isPair rfl (descends_of_end rfl rfl (fun _ => rfl) ?_)
    rw [met, descent_none]
    rfl
  | some _ ih =>
    exact .of_not_isPair rfl (descends_of_content rfl rfl rfl (ih (htypes.arg (by simp))).part)
  | left _ ih =>
    exact .of_not_isPair rfl (descends_of_content rfl rfl rfl (ih (htypes.arg (by simp))).part)
  | right _ ih =>
    exact .of_not_isPair rfl (descends_of_content rfl rfl rfl (ih (htypes.arg (by simp))).part)
  | list _ ih =>
    refine .of_not_isPair rfl (descends_of_children rfl rfl fun cs hcs => ?_)
    rw [map_snd_of_children_list hcs]
    exact covers_elements fun x hx => (ih x hx (htypes.arg (by simp))).part
  | map hentries _ ih =>
    refine .of_not_isPair rfl (descends_of_children rfl rfl fun cs hcs => ?_)
    rw [map_snd_of_children_map hcs]
    exact covers_entries hentries fun e he x hx => (ih e he x hx (htypes.arg (by simp))).part
  | bigMap n => exact .of_not_isPair rfl (descends_of_end rfl rfl (fun _ => rfl) rfl)
  | @leaf p args annots w u value hp _ =>
    refine .of_not_isPair (Bool.eq_false_iff.2 fun hpair => ?_) (descends_leaf hp)
    rw [eq_pair_of_isType htypes.isType hpair] at hp
    cases hp

/-- The walk over a value that is passed on the way down is that over the value as a part, but for
the visit of the value itself. -/
lemma walkPart_eq_visit_walk (hnesting : isNesting v.type) :
    walkPart skipSets "" v = .visit "" v (walk skipSets v) := by
  rw [walkPart_of_isNesting hnesting, walk, unwrap_of_side? (side?_of_isNesting hnesting)]

lemma ends_walk (hnesting : isNesting v.type) (h : Descends v)
    (hfault : (walk skipSets v).fault = none) : (walk skipSets v).ends = met v := by
  have hpart : (walkPart skipSets "" v).fault = none := by
    rw [walkPart_eq_visit_walk hnesting, Walk.fault_visit, hfault]
  rw [← h "" hpart, walkPart_eq_visit_walk hnesting, Walk.ends_visit_of_isNesting hnesting]

/-- The values that a walk ends at, sets being skipped, are those of the items, in the same order:
a walk through the named parts and the alignment of the leaves agree. -/
theorem ends_walk_of_fits {type value : Expr} (hnesting : isNesting type)
    (htypes : IsTypeTree type) (hfits : Fits type value) :
    ∃ items, namedItems type value = .ok items ∧
      ((walk skipSets ⟨type, value⟩).fault = none →
        (walk skipSets ⟨type, value⟩).ends.map TypedValue.value = items.map Item.value) := by
  obtain ⟨aligned, haligned, hplaces⟩ := alignWhole_of_align (align_of_fits hfits) .own
  have hitems : (nameItems aligned).map Item.place = descent type value := by
    rw [map_place_nameItems, hplaces]
  refine ⟨nameItems aligned, ?_, fun hfault => ?_⟩
  · rw [namedItems, alignValue_eq, haligned]
    rfl
  · rw [ends_walk hnesting (agrees_of_fits htypes hfits).part hfault]
    calc (met ⟨type, value⟩).map TypedValue.value
        = (descent type value).map fun place => place.2.2 := List.map_map
      _ = ((nameItems aligned).map Item.place).map fun place => place.2.2 := by rw [hitems]
      _ = (nameItems aligned).map Item.value := List.map_map

/-- A labelled pair with a set beside a list of optional texts: the set and the empty option are
ends, the pair and the list are not. -/
theorem ends_walk_of_fits_labelled :
    let inner := app (.type .pair) [type0 .nat, type1 .set (type0 .nat)] ["%inner"] false false
    let type :=
      app (.type .pair) [inner, type1 .list (type1 .option (type0 .string))] [] false false
    let value := data2 .pair (data2 .pair (int 1) (list [int 2]))
      (list [data1 .some (string "a"), data0 .none])
    ∃ items, namedItems type value = .ok items ∧
      (walk skipSets ⟨type, value⟩).ends.map TypedValue.value = items.map Item.value ∧
        items.map Item.value = [int 1, list [int 2], string "a", data0 .none] := by
  intro inner type value
  have hfits : Fits type value := by
    refine .pair rfl (.pair rfl (.leaf rfl rfl) (.leaf rfl rfl)) (.list ?_)
    exact List.forall_mem_cons.2 ⟨.some (.leaf rfl rfl), List.forall_mem_singleton.2 .none⟩
  have htypes : IsTypeTree type := by
    simp [type, inner, type0, type1, apply0, apply1, apply, isTypeTree_app_iff, Primitive.isType]
  have hinner : children ⟨inner, data2 .pair (int 1) (list [int 2])⟩ =
      .ok [("0", ⟨type0 .nat, int 1⟩), ("1", ⟨type1 .set (type0 .nat), list [int 2]⟩)] := by
    rw [children, parts_pair, fields_eq rfl rfl]
    rfl
  have hchildren : children ⟨type, value⟩ =
      .ok [("inner", ⟨inner, data2 .pair (int 1) (list [int 2])⟩),
        ("1", ⟨type1 .list (type1 .option (type0 .string)),
          list [data1 .some (string "a"), data0 .none]⟩)] := by
    rw [children, parts_pair, fields_eq rfl rfl]
    rfl
  have hpasses : Passes skipSets ⟨type, value⟩ := by
    refine passes_of_children rfl rfl hchildren (List.forall_mem_cons.2 ⟨?_, ?_⟩)
    · refine passes_of_children rfl rfl hinner (List.forall_mem_cons.2 ⟨?_, ?_⟩)
      · exact passes_of_end rfl rfl
      · exact List.forall_mem_singleton.2 (passes_of_children rfl rfl rfl
          (List.forall_mem_singleton.2 (passes_of_end rfl rfl)))
    · refine List.forall_mem_singleton.2 (passes_of_children rfl rfl rfl ?_)
      exact List.forall_mem_cons.2 ⟨passes_of_content rfl rfl (passes_of_end rfl rfl),
        List.forall_mem_singleton.2 (passes_of_end rfl rfl)⟩
  have hfault : (walk skipSets ⟨type, value⟩).fault = none := by
    have hpart := hpasses ""
    rwa [walkPart_eq_visit_walk rfl, Walk.fault_visit] at hpart
  obtain ⟨items, hitems, hends⟩ := ends_walk_of_fits rfl htypes hfits
  refine ⟨items, hitems, hends hfault, ?_⟩
  have h : (namedItems type value).map (List.map Item.value) =
      .ok [int 1, list [int 2], string "a", data0 .none] := by cbv
  rw [hitems] at h
  exact Except.ok.inj h

end TypedValue

end Michelson
