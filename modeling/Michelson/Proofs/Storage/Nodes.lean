/-
# The nodes of a type that values are located at

Aligning goes down a type and does not enter its big maps, so the type nodes of the located values
are among the nodes outside big maps (`type_mem_outerNodes`), and so are the options, choices, lists
and maps that are around them (`surrounds_of_mem_around`).  Some of these nodes have only pairs,
options and choices above them.  These are the *open* nodes: a value can be located at them once at
most.
-/
import Michelson.Proofs.Expr.Traversal
import Michelson.Proofs.Storage.Bases

namespace Michelson.Storage

open Michelson.Expr

/-! ### The nodes outside big maps -/

/-- The nodes of a type, the big maps included and the nodes inside them left out. -/
def outerNodes (type : Expr) : List Expr := type.visited fun t => t.applies (.type .bigMap)

/-- The labels of the nodes outside big maps. -/
def outerLabels (type : Expr) : List String := (outerNodes type).filterMap label?

/-- Whether a type with this primitive holds each of its parts at most once: a list and a map may
hold them any number of times. -/
def holdsOnce : Primitive → Bool
  | .type .pair | .type .option | .type .or => true
  | _ => false

/-- The nodes of a type with only pairs, options and choices above them. -/
def openNodes (type : Expr) : List Expr := type.visited fun t => !t.prim?.any holdsOnce

variable {type node t : Expr} {name : String}

lemma holdsOnce_iff {p : Primitive} :
    holdsOnce p ↔ p = .type .pair ∨ p = .type .option ∨ p = .type .or := by
  constructor
  · intro h
    unfold holdsOnce at h
    split at h <;> simp_all
  · rintro (rfl | rfl | rfl) <;> rfl

lemma not_applies_of_holdsOnce {p : Primitive} {args : List Expr} {annots : List String}
    {w u : Bool} (h : holdsOnce p) :
    (app p args annots w u).applies (.type .bigMap) = false := by
  rcases holdsOnce_iff.1 h with rfl | rfl | rfl <;> rfl

lemma outerNodes_eq (type : Expr) : outerNodes type =
    type :: if type.applies (.type .bigMap) then [] else type.args.flatMap outerNodes :=
  visited_eq_cons _ type

lemma outerNodes_of_bigMap (h : type.applies (.type .bigMap)) : outerNodes type = [type] := by
  rw [outerNodes_eq, if_pos h]

lemma mem_outerNodes_self (type : Expr) : type ∈ outerNodes type := by
  rw [outerNodes_eq]
  exact List.mem_cons_self

lemma mem_outerNodes_iff (h : type.applies (.type .bigMap) = false) :
    t ∈ outerNodes type ↔ t = type ∨ ∃ a ∈ type.args, t ∈ outerNodes a := by
  rw [outerNodes_eq, h, if_neg Bool.false_ne_true, List.mem_cons, List.mem_flatMap]

lemma outerLabels_eq (h : type.applies (.type .bigMap) = false) :
    outerLabels type = type.label?.toList ++ type.args.flatMap outerLabels := by
  rw [outerLabels, outerNodes_eq, h, if_neg Bool.false_ne_true, List.filterMap_cons,
    List.filterMap_flatMap]
  cases type.label? <;> rfl

lemma mem_outerLabels (ht : t ∈ outerNodes type) (hlabel : t.label? = some name) :
    name ∈ outerLabels type :=
  List.mem_filterMap.2 ⟨t, ht, hlabel⟩

/-- An open node is outside big maps. -/
lemma openNodes_sublist (type : Expr) : (openNodes type).Sublist (outerNodes type) := by
  refine visited_sublist_of_imp (fun t ht => ?_) type
  rw [applies_iff.1 ht]
  rfl

lemma mem_openNodes_iff :
    t ∈ openNodes type ↔ t = type ∨ type.prim?.any holdsOnce ∧ ∃ a ∈ type.args, t ∈ openNodes a := by
  rw [openNodes, visited_eq_cons, List.mem_cons]
  cases h : type.prim?.any holdsOnce with
  | false => simp
  | true => simp [openNodes]

/-! ### Where located values come from -/

/-- What a type puts around the values that are looked for inside of it. -/
inductive Surrounds : Surrounding → Expr → Prop
  | option {args : List Expr} {annots : List String} {w u : Bool} :
      Surrounds (.node (app (.type .option) args annots w u)) (app (.type .option) args annots w u)
  | or {args : List Expr} {annots : List String} {w u : Bool} :
      Surrounds (.node (app (.type .or) args annots w u)) (app (.type .or) args annots w u)
  | list {args : List Expr} {annots : List String} {w u : Bool} :
      Surrounds (.node (app (.type .list) args annots w u)) (app (.type .list) args annots w u)
  | map {a b : Expr} {more : List Expr} {annots : List String} {w u : Bool} (position : Nat)
      (key : Expr) : Surrounds (.entry (app (.type .map) (a :: b :: more) annots w u) position key)
        (app (.type .map) (a :: b :: more) annots w u)

/-- What is around the parts of a type: nothing new for pairs and storage sections, which are
spliced, and for a slot one thing more. -/
inductive Below (type : Expr) (around : List Surrounding) : List Surrounding → Prop
  | spliced (h : type.applies (.type .bigMap) = false) : Below type around around
  | within {s : Surrounding} (h : Surrounds s type) : Below type around (s :: around)

variable {around : List Surrounding} {queue : List Expr} {p : Primitive} {args : List Expr}
  {annots : List String} {w u : Bool} {l : Located}

lemma Below.not_applies {around' : List Surrounding} (h : Below type around around') :
    type.applies (.type .bigMap) = false := by
  cases h with
  | spliced h => exact h
  | within h => cases h <;> rfl

lemma mem_locate_slot (hslot : isSlot p) (h : l ∈ locate (app p args annots w u) around queue) :
    (l.around = around ∧ l.type = app p args annots w u ∧ l.prim = p) ∨
      ∃ a ∈ args, ∃ s x, Surrounds s (app p args annots w u) ∧
        l ∈ locate a (s :: around) (pairLeaves x) := by
  unfold locate at h
  dsimp only at h
  split at h
  · exact absurd hslot (by decide)
  · exact absurd hslot (by decide)
  · split at h
    · exact absurd h List.not_mem_nil
    · split at h
      · exact Or.inr ⟨_, List.mem_cons_self, _, _, .option, h⟩
      · exact Or.inr ⟨_, List.mem_cons_self, _, _, .or, h⟩
      · exact Or.inr ⟨_, List.mem_cons_of_mem _ List.mem_cons_self, _, _, .or, h⟩
      · obtain ⟨x, -, h⟩ := List.mem_flatMap.1 h
        exact Or.inr ⟨_, List.mem_cons_self, _, x, .list, h⟩
      · obtain ⟨⟨entry, position⟩, -, h⟩ := List.mem_flatMap.1 h
        unfold entryPlaces at h
        split at h
        · exact Or.inr ⟨_, List.mem_cons_of_mem _ List.mem_cons_self, _, _, .map _ _, h⟩
        · exact absurd h List.not_mem_nil
      · obtain rfl := List.mem_singleton.1 h
        exact Or.inl ⟨rfl, rfl, rfl⟩

lemma mem_locateAll {types : List Expr} (h : l ∈ locateAll types around queue) :
    ∃ a ∈ types, ∃ queue', l ∈ locate a around queue' := by
  induction types generalizing queue with
  | nil => exact absurd h List.not_mem_nil
  | cons type types ih =>
    rw [locateAll] at h
    rcases List.mem_append.1 h with h | h
    · exact ⟨type, List.mem_cons_self, queue, h⟩
    · obtain ⟨a, ha, queue', h⟩ := ih h
      exact ⟨a, List.mem_cons_of_mem type ha, queue', h⟩

/-- A located value belongs to the type itself, or to a part of it with one thing more around. -/
lemma mem_locate (h : l ∈ locate type around queue) :
    (l.around = around ∧ l.type = type ∧ type.prim? = some l.prim) ∨
      ∃ a ∈ type.args, ∃ around' queue', Below type around around' ∧
        l ∈ locate a around' queue' := by
  match type, h with
  | .literal _ _, h => exact absurd h List.not_mem_nil
  | .seq _ _, h => exact absurd h List.not_mem_nil
  | .app p args annots w u, h =>
    rcases spliced_or_isSlot p with rfl | rfl | hslot
    · match args, h with
      | [], h =>
        cases queue with
        | nil => exact absurd h List.not_mem_nil
        | cons value rest =>
          obtain rfl := List.mem_singleton.1 h
          exact Or.inl ⟨rfl, rfl, rfl⟩
      | a :: more, h =>
        exact Or.inr ⟨a, List.mem_cons_self, around, queue, .spliced rfl, h⟩
    · obtain ⟨a, ha, queue', h⟩ := mem_locateAll h
      exact Or.inr ⟨a, ha, around, queue', .spliced rfl, h⟩
    · rcases mem_locate_slot hslot h with ⟨haround, htype, hprim⟩ | ⟨a, ha, s, x, hs, h⟩
      · exact Or.inl ⟨haround, htype, congrArg some hprim.symm⟩
      · exact Or.inr ⟨a, ha, s :: around, x.pairLeaves, .within hs, h⟩

/-- The type node of a located value is outside big maps. -/
lemma type_mem_outerNodes (h : l ∈ locate type around queue) :
    l.type ∈ outerNodes type ∧ l.type.prim? = some l.prim := by
  induction type using inductArgs generalizing around queue with
  | node type ih =>
    rcases mem_locate h with ⟨-, htype, hprim⟩ | ⟨a, ha, around', queue', hbelow, h⟩
    · rw [htype]
      exact ⟨mem_outerNodes_self type, hprim⟩
    · obtain ⟨hnode, hprim⟩ := ih a ha h
      exact ⟨(mem_outerNodes_iff hbelow.not_applies).2 (Or.inr ⟨a, ha, hnode⟩), hprim⟩

/-- What is around a located value comes from nodes outside big maps. -/
lemma surrounds_of_mem_around (h : l ∈ locate type around queue) {s : Surrounding}
    (hs : s ∈ l.around) : s ∈ around ∨ ∃ t ∈ outerNodes type, Surrounds s t := by
  induction type using inductArgs generalizing around queue with
  | node type ih =>
    rcases mem_locate h with ⟨haround, -, -⟩ | ⟨a, ha, around', queue', hbelow, h⟩
    · exact Or.inl (haround ▸ hs)
    · rcases ih a ha h with hmem | ⟨t, ht, hst⟩
      · cases hbelow with
        | spliced _ => exact Or.inl hmem
        | within hst =>
          rcases List.mem_cons.1 hmem with rfl | hmem
          · exact Or.inr ⟨type, mem_outerNodes_self type, hst⟩
          · exact Or.inl hmem
      · exact Or.inr ⟨t, (mem_outerNodes_iff hbelow.not_applies).2 (Or.inr ⟨a, ha, ht⟩), hst⟩

/-! ### Items -/

section

variable {value : Expr} {items : List Item} {i : Nat} {item : Item}

lemma exists_located (h : namedItems type value = .ok items) (hitem : items[i]? = some item) :
    ∃ l, (located type value)[i]? = some l ∧ l.type = item.type ∧ l.prim = item.prim := by
  have hplace := congrArg (·[i]?) (map_place_of_namedItems h)
  simp only [List.getElem?_map, hitem, Option.map_some] at hplace
  obtain ⟨l, hl, heq⟩ := Option.map_eq_some_iff.1 hplace.symm
  rw [Located.place, Item.place, Prod.mk.injEq, Prod.mk.injEq] at heq
  exact ⟨l, hl, heq.2.1, heq.1⟩

/-- The type node of an item is outside big maps and applies the primitive of the item. -/
lemma item_type_mem_outerNodes (h : namedItems type value = .ok items)
    (hitem : items[i]? = some item) :
    item.type ∈ outerNodes type ∧ item.type.prim? = some item.prim := by
  obtain ⟨l, hl, htype, hprim⟩ := exists_located h hitem
  rw [← htype, ← hprim]
  exact type_mem_outerNodes (List.mem_of_getElem? hl)

end

end Michelson.Storage
