/-
# The parts of a typed value

A typed value is a value with its type, so that its parts can be addressed by the names that the
type gives them.  Options and choices are looked through.  A pair type has the fields along its
right spine, those of nested pairs without a label among them; its value may be laid out flat,
nested to the right or as a sequence.  Every part has a smaller type than the whole, unless this is
a pair type without arguments.
-/
import Michelson.ContractFault
import Michelson.Expr.Comb
import Michelson.Names

namespace Michelson

namespace Expr

theorem sizeOf_lt_of_mem_spine (args : List Expr) :
    ∀ t ∈ spine args, sizeOf t < sizeOf args := by
  refine Expr.rec_1 (motive_1 := fun e => ∀ t ∈ combParts e, sizeOf t ≤ sizeOf e)
    (motive_2 := fun es => ∀ t ∈ spine es, sizeOf t < sizeOf es) ?_ ?_ ?_ ?_ ?_ args
  · simp [combParts]
  · simp [combParts]
  · intro p args annots w u ih t ht
    simp only [combParts] at ht
    split at ht
    · have := ih t ht
      simp; omega
    · simp_all
  · simp [spine]
  · intro e es ihe ihes t ht
    match es with
    | [] =>
      simp only [spine] at ht
      split at ht
      · have := ihe t ht
        simp; omega
      · exact List.sizeOf_lt_of_mem ht
    | e' :: es =>
      simp only [spine, List.mem_cons] at ht
      rcases ht with rfl | ht
      · simp; omega
      · have := ihes t ht
        simp at this ⊢; omega

theorem sizeOf_lt_of_mem_combParts {t type : Expr} (hp : type.isPair = true)
    (hne : type.args.isEmpty = false) (h : t ∈ type.combParts) : sizeOf t < sizeOf type := by
  match type with
  | literal _ _ => simp [isPair, prim?] at hp
  | seq _ _ => simp [isPair, prim?] at hp
  | app p parts annots w u =>
    simp only [isPair, prim?, Option.any_some] at hp
    simp only [args] at hne
    simp only [combParts, hp, hne, Bool.not_false, Bool.and_self, if_true] at h
    have := sizeOf_lt_of_mem_spine _ _ h
    simp; omega

end Expr

/-- A value with its type. -/
structure TypedValue where
  /-- The type. -/
  type : Expr
  /-- The value. -/
  value : Expr

namespace TypedValue

/-- The fault of a value that does not fit its type. -/
def mismatch (v : TypedValue) : ShapeFault := .mismatch v.value v.type

/-- The value in an option or a choice, as a value of a part of the type. -/
def content (v : TypedValue) (side : Nat) : Except ShapeFault TypedValue :=
  match v.type.arg? side, v.value.arg? 0 with
  | some type, some value => .ok ⟨type, value⟩
  | _, _ => .error v.mismatch

/-- The argument of a type to go on with when an option or a choice is looked through. -/
def side? (v : TypedValue) : Option Nat :=
  match v.type.prim?, v.value.prim? with
  | some (.type .option), some (.data .some) => some 0
  | some (.type .or), some (.data .left) => some 0
  | some (.type .or), some (.data .right) => some 1
  | _, _ => none

theorem sizeOf_type_content {v r : TypedValue} {side : Nat} (h : v.content side = .ok r) :
    sizeOf r.type < sizeOf v.type := by
  unfold content at h
  split at h
  · next type value ht hv =>
    cases h
    have hmem := List.mem_of_getElem? ht
    rcases v with ⟨t, x⟩
    match t with
    | .literal _ _ => simp [Expr.args] at hmem
    | .seq items _ =>
      have := List.sizeOf_lt_of_mem hmem
      simp [Expr.args] at this ⊢; omega
    | .app _ args _ _ _ =>
      have := List.sizeOf_lt_of_mem hmem
      simp [Expr.args] at this ⊢; omega
  · cases h

/-- The value inside all options and choices around it. -/
def unwrap (v : TypedValue) : Except ShapeFault TypedValue :=
  match v.side? with
  | none => .ok v
  | some side =>
    match _h : v.content side with
    | .ok r => unwrap r
    | .error fault => .error fault
termination_by sizeOf v.type
decreasing_by exact sizeOf_type_content _h

theorem sizeOf_type_unwrap {v r : TypedValue} (h : v.unwrap = .ok r) :
    sizeOf r.type ≤ sizeOf v.type := by
  fun_induction unwrap v with
  | case1 => cases h; exact Nat.le_refl _
  | case2 v side _ r' hr ih => exact Nat.le_trans (ih h) (Nat.le_of_lt (sizeOf_type_content hr))
  | case3 => cases h

/-! ### Fields of pairs -/

/-- Splits the value of a pair type into `count` fields along its right spine. -/
def splitSpine : (count : Nat) → Expr → Option (List Expr)
  | 0, value => some [value]
  | 1, value => some [value]
  | count + 2, value =>
    if value.applies (.data .pair) || value.isSequence then
      match value.args with
      | [first, last] => (splitSpine (count + 1) last).map (first :: ·)
      | first :: rest@(_ :: _) =>
        (splitSpine (count + 1) (.apply (.data .pair) rest)).map (first :: ·)
      | _ => none
    else none

/-- Whether the fields of a nested pair type count as fields of the pair around it. -/
def isMerged (type : Expr) : Bool := type.applies (.type .pair) && type.label?.isNone

/-- Whether a type is a pair without arguments.  Its spine is the type itself, so it is not made of
smaller types. -/
def isBarePair (type : Expr) : Bool := type.applies (.type .pair) && type.args.isEmpty

/-- The fields of a pair type with their values, those of nested pairs without a label merged in.
A pair type without arguments is its own only field if it has a label; without one it is merged into
itself over and over, which never comes to a field. -/
def fields (type value : Expr) : Option (List TypedValue) :=
  if h : type.isPair = true ∧ type.args.isEmpty = false then do
    let values ← splitSpine type.combParts.length value
    let parts ← (type.combParts.attach.zip values).mapM fun (⟨t, ht⟩, v) =>
      have : sizeOf t < sizeOf type := Expr.sizeOf_lt_of_mem_combParts h.1 h.2 ht
      if isMerged t then fields t v else some [⟨t, v⟩]
    return parts.flatten
  else if type.isPair && !isMerged type then some [⟨type, value⟩]
  else none
termination_by sizeOf type

/-! ### Parts -/

/-- A direct part of a value. -/
inductive Part where
  /-- A part with a name. -/
  | named (name : String) (child : TypedValue)
  /-- The value of an entry of a map, named by its key. -/
  | keyed (key child : TypedValue)
  /-- A tree in the place of an entry of a map that is none. -/
  | broken

namespace Part

/-- The values in a part: the key and the part itself. -/
def values : Part → List TypedValue
  | named _ child => [child]
  | keyed key child => [key, child]
  | broken => []

end Part

/-- The entry of a map with these types of keys and values. -/
def entry (keyType valueType : Expr) (e : Expr) : Part :=
  match e with
  | .app (.data .elt) [key, value] _ _ _ => .keyed ⟨keyType, key⟩ ⟨valueType, value⟩
  | _ => .broken

/-- The items of a sequence. -/
def items (v : TypedValue) : Except ShapeFault (List Expr) :=
  match v.value with
  | .seq items _ => .ok items
  | _ => .error v.mismatch

/-- Names the fields of a pair by their labels, else by their positions. -/
def nameFields (fields : List TypedValue) : List Part :=
  let wished (p : TypedValue × Nat) : Option String := p.1.type.label? <|> some (toString p.2)
  let names := Names.assign (fun used p => Names.freshOr used (wished p) "field") [] fields.zipIdx
  (names.zip fields).map fun (name, child) => .named name child

/-- The items of a list or a set, whose type has these arguments. -/
def itemParts (v : TypedValue) (args : List Expr) : Except ShapeFault (List Part) :=
  match args with
  | [] => .error v.mismatch
  | itemType :: _ => do
    let items ← v.items
    return items.mapIdx fun i item => .named (toString i) ⟨itemType, item⟩

/-- The entries of a map, whose type has these arguments.  A big map given by its number has
none. -/
def entryParts (v : TypedValue) (args : List Expr) : Except ShapeFault (List Part) :=
  if v.value.int?.isSome then .ok []
  else match args with
    | [keyType, valueType] => do
      let items ← v.items
      return items.map (entry keyType valueType)
    | _ => .error v.mismatch

/-- The direct parts of a value.  A value of a type without parts has none. -/
def parts (v : TypedValue) : Except ShapeFault (List Part) :=
  match v.type with
  | .app (.type .pair) _ _ _ _ =>
    match fields v.type v.value with
    | some fields => .ok (nameFields fields)
    | none => .error v.mismatch
  | .app (.type .list) args _ _ _ => itemParts v args
  | .app (.type .set) args _ _ _ => itemParts v args
  | .app (.type .map) args _ _ _ => entryParts v args
  | .app (.type .bigMap) args _ _ _ => entryParts v args
  | _ => .ok []

/-! ### Parts are smaller -/

theorem exists_of_mem_mapM {α β : Type} {f : α → Option β} {xs : List α} {ys : List β}
    (h : xs.mapM f = some ys) {y : β} (hy : y ∈ ys) : ∃ x ∈ xs, f x = some y := by
  induction xs generalizing ys with
  | nil => simp at h; subst h; simp at hy
  | cons x xs ih =>
    simp only [List.mapM_cons, Option.bind_eq_bind, Option.bind_eq_some_iff, Option.pure_def,
      Option.some.injEq] at h
    obtain ⟨z, hz, zs, hzs, rfl⟩ := h
    rcases List.mem_cons.1 hy with rfl | hy
    · exact ⟨x, by simp, hz⟩
    · obtain ⟨w, hw, e⟩ := ih hzs hy
      exact ⟨w, by simp [hw], e⟩

/-- A type whose fields are merged has arguments, if it has fields. -/
theorem args_ne_of_isMerged {type value : Expr} {fs : List TypedValue} (hm : isMerged type = true)
    (h : fields type value = some fs) : type.args.isEmpty = false := by
  rw [fields] at h
  split at h
  · next hp => exact hp.2
  · simp [hm] at h

theorem sizeOf_type_fields {type value : Expr} {fs : List TypedValue}
    (hargs : type.args.isEmpty = false) (h : fields type value = some fs) :
    ∀ f ∈ fs, sizeOf f.type < sizeOf type := by
  fun_induction fields type value generalizing fs with
  | case1 type value hp ih =>
    simp only [Option.bind_eq_bind, Option.bind_eq_some_iff, Option.pure_def,
      Option.some.injEq] at h
    obtain ⟨vs, hvs, ps, hps, rfl⟩ := h
    intro f hf
    obtain ⟨p, hp', hf⟩ := List.mem_flatten.1 hf
    obtain ⟨⟨⟨t, ht⟩, v⟩, hx, e⟩ := exists_of_mem_mapM hps hp'
    have hlt := Expr.sizeOf_lt_of_mem_combParts hp.1 hp.2 ht
    simp only at e
    split at e
    · next hm => exact Nat.lt_trans (ih t ht v (args_ne_of_isMerged hm e) e f hf) hlt
    · cases e; simp at hf; subst hf; exact hlt
  | case2 type value hp hpair =>
    simp only [Bool.and_eq_true] at hpair
    exact absurd ⟨hpair.1, hargs⟩ hp
  | case3 => cases h

theorem mem_values_nameFields {fs : List TypedValue} {p : Part} (h : p ∈ nameFields fs)
    {t : TypedValue} (ht : t ∈ p.values) : t ∈ fs := by
  simp only [nameFields, List.mem_map] at h
  obtain ⟨⟨n, c⟩, hc, rfl⟩ := h
  simp only [Part.values, List.mem_singleton] at ht
  subst ht
  exact (List.of_mem_zip hc).2

theorem sizeOf_type_itemParts {v : TypedValue} {ps : List Part} {c : Primitive}
    {args : List Expr} {annots : List String} {w u : Bool} (hv : v.type = .app c args annots w u)
    (h : itemParts v args = .ok ps) : ∀ p ∈ ps, ∀ t ∈ p.values, sizeOf t.type < sizeOf v.type := by
  match args, h with
  | itemType :: rest, h =>
    cases hi : v.items with
    | error f => simp [itemParts, hi, bind, Except.bind] at h
    | ok items =>
      simp only [itemParts, hi, bind, Except.bind, pure, Except.pure, Except.ok.injEq] at h
      subst h
      intro p hp t ht
      obtain ⟨i, _, rfl⟩ := List.mem_mapIdx.1 hp
      simp only [Part.values, List.mem_singleton] at ht
      subst ht
      simp [hv]; omega

theorem sizeOf_type_entryParts {v : TypedValue} {ps : List Part} {c : Primitive}
    {args : List Expr} {annots : List String} {w u : Bool} (hv : v.type = .app c args annots w u)
    (h : entryParts v args = .ok ps) : ∀ p ∈ ps, ∀ t ∈ p.values, sizeOf t.type < sizeOf v.type := by
  intro p hp t ht
  unfold entryParts at h
  split at h
  · cases h; simp at hp
  · split at h
    · next keyType valueType =>
      cases hi : v.items with
      | error f => simp [hi, bind, Except.bind] at h
      | ok items =>
        simp only [hi, bind, Except.bind, pure, Except.pure, Except.ok.injEq] at h
        subst h
        obtain ⟨e, _, rfl⟩ := List.mem_map.1 hp
        unfold entry at ht
        split at ht
        · simp only [Part.values, List.mem_cons, List.not_mem_nil, or_false] at ht
          rcases ht with rfl | rfl <;> simp [hv] <;> omega
        · simp [Part.values] at ht
    · cases h

/-- The parts of a value, and their keys, have smaller types than the value, unless its type is a pair
without arguments. -/
theorem sizeOf_type_parts {v : TypedValue} {ps : List Part} (hbare : isBarePair v.type = false)
    (h : v.parts = .ok ps) : ∀ p ∈ ps, ∀ t ∈ p.values, sizeOf t.type < sizeOf v.type := by
  unfold parts at h
  split at h
  · next hv =>
    split at h
    · next fs hfs =>
      cases h
      have hargs : v.type.args.isEmpty = false := by
        simpa [isBarePair, hv, Expr.applies, Expr.prim?] using hbare
      exact fun p hp t ht => sizeOf_type_fields hargs hfs t (mem_values_nameFields hp ht)
    · cases h
  · next hv => exact sizeOf_type_itemParts hv h
  · next hv => exact sizeOf_type_itemParts hv h
  · next hv => exact sizeOf_type_entryParts hv h
  · next hv => exact sizeOf_type_entryParts hv h
  · cases h; simp

end TypedValue

end Michelson
