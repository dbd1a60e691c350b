/-
# Aligning one node at a time

A type node that is neither a pair nor a storage section is a *slot*: it takes exactly one value
off the queue, and its items do not depend on the values around that one (`align_cons`).  So the
queue is opened here once and for all: behind this file a slot is `slotItems` of one value, with one
equation for each type constructor and each form of value it takes, and one lemma that says which
forms these are.  What hangs below a slot is aligned with a queue of its own, which `alignWhole`
uses up.
-/
import Michelson.Proofs.Except
import Michelson.Proofs.Expr.Comb
import Michelson.Proofs.Names
import Michelson.Storage.Items

namespace Michelson

/-! ### Items without their names -/

/-- What an item says apart from its name: the primitive of the type node, the type node and the
value. -/
abbrev Storage.Place := Primitive × Expr × Expr

/-- The place of a value before it is named. -/
def Aligned.place (i : Aligned) : Storage.Place := (i.prim, i.type, i.value)

/-- The place of an item. -/
def Storage.Item.place (i : Storage.Item) : Storage.Place := (i.prim, i.type, i.value)

namespace Storage

open Michelson.Expr

/-- Naming changes nothing but the names. -/
lemma map_place_nameItems (items : List Aligned) :
    (nameItems items).map Item.place = items.map Aligned.place := by
  rw [nameItems, List.map_map]
  generalize hnames : Names.assign _ [] items = names
  have hlength : items.length ≤ names.length := by rw [← hnames, Names.length_assign]
  calc _ = ((items.zip names).map Prod.fst).map Aligned.place := by
        rw [List.map_map]
        rfl
    _ = items.map Aligned.place := by rw [List.map_fst_zip hlength]

/-! ### Slots -/

/-- Whether a type node with this primitive takes exactly one value. -/
def isSlot (p : Primitive) : Bool := p ≠ .keyword .storage && p ≠ .type .pair

/-- Whether aligning has a rule for the primitive.  Other nodes take any one value as it is. -/
def isStructural : Primitive → Bool
  | .keyword .storage | .type .pair | .type .bigMap | .type .map | .type .option | .type .list
  | .type .or => true
  | _ => false

/-- Whether a tree is the entry of a map: a key and a value. -/
def IsEntry (e : Expr) : Prop :=
  ∃ key value annots w u, e = app (.data .elt) [key, value] annots w u

/-- The items of a value that has to be used up by its type. -/
def alignWhole (source : NameSource) (type value : Expr) : Shaped (List Aligned) := do
  exactly type (← align source 0 value.pairLeaves type)

/-- The items of the one value that a slot takes. -/
def slotItems (source : NameSource) (slot value : Expr) : Shaped (List Aligned) :=
  (align source 0 [value] slot).map Prod.fst

variable {source : NameSource} {used : Nat} {value : Expr} {queue rest : List Expr}
  {p : Primitive} {args more : List Expr} {annots : List String} {w u : Bool}
  {items : List Aligned}

lemma spliced_or_isSlot (p : Primitive) : p = .keyword .storage ∨ p = .type .pair ∨ isSlot p := by
  by_cases hstorage : p = .keyword .storage
  · exact Or.inl hstorage
  · by_cases hpair : p = .type .pair
    · exact Or.inr (Or.inl hpair)
    · exact Or.inr (Or.inr (by simp [isSlot, hstorage, hpair]))

lemma isStructural_iff : isStructural p ↔ p = .keyword .storage ∨ p = .type .pair ∨
    p = .type .bigMap ∨ p = .type .map ∨ p = .type .option ∨ p = .type .list ∨ p = .type .or := by
  constructor
  · intro h
    unfold isStructural at h
    split at h <;> simp_all
  · rintro (rfl | rfl | rfl | rfl | rfl | rfl | rfl) <;> rfl

lemma isSlot_of_not_isStructural (h : isStructural p = false) : isSlot p := by
  have hstorage : p ≠ .keyword .storage := by
    rintro rfl
    exact absurd h (by decide)
  have hpair : p ≠ .type .pair := by
    rintro rfl
    exact absurd h (by decide)
  simp [isSlot, hstorage, hpair]

lemma align_storage (inner : Expr) :
    align source used queue (app (.keyword .storage) (inner :: more) annots w u) =
      align source used queue inner := by
  rw [align]

lemma align_pair :
    align source used queue (app (.type .pair) args annots w u) =
      alignAll source used queue args := by
  rw [align]

lemma align_nil (h : isSlot p) :
    align source used [] (app p args annots w u) = .error (.exhausted p used) := by
  unfold align
  split
  · exact absurd h (by decide)
  · exact absurd h (by decide)
  · rfl

/-- A slot takes one value, whatever is before and behind it. -/
lemma align_cons (h : isSlot p) :
    align source used (value :: rest) (app p args annots w u) =
      (slotItems source (app p args annots w u) value).map fun items => (items, rest) := by
  unfold slotItems align
  split
  · exact absurd h (by decide)
  · exact absurd h (by decide)
  · dsimp only
    rw [Except.map_map, Except.map_map]

/-- The types of a list are aligned from the left, each with what those before it have left. -/
lemma alignAll_cons_eq_ok_iff {type : Expr} {types : List Expr}
    {result : List Aligned × List Expr} :
    alignAll source used queue (type :: types) = .ok result ↔
      ∃ items rest, align source used queue type = .ok (items, rest) ∧ ∃ others rest',
        alignAll source (used + (queue.length - rest.length)) rest types = .ok (others, rest') ∧
          result = (items ++ others, rest') := by
  rw [alignAll, Except.bind_eq_ok_iff]
  constructor
  · rintro ⟨⟨items, rest⟩, halign, h⟩
    obtain ⟨⟨others, rest'⟩, hothers, h⟩ := Except.bind_eq_ok_iff.1 h
    cases h
    exact ⟨items, rest, halign, others, rest', hothers, rfl⟩
  · rintro ⟨items, rest, halign, others, rest', hothers, rfl⟩
    exact ⟨(items, rest), halign, Except.bind_eq_ok_iff.2 ⟨(others, rest'), hothers, rfl⟩⟩

lemma alignWhole_eq_ok_iff {type : Expr} :
    alignWhole source type value = .ok items ↔
      align source 0 value.pairLeaves type = .ok (items, []) := by
  rw [alignWhole, Except.bind_eq_ok_iff]
  constructor
  · rintro ⟨⟨items', rest⟩, halign, hexact⟩
    cases rest with
    | nil =>
      cases hexact
      exact halign
    | cons v rest => cases hexact
  · intro halign
    exact ⟨(items, []), halign, rfl⟩

lemma alignElements_cons_eq_ok_iff {align : Expr → Shaped (List Aligned)} {x : Expr}
    {elements : List Expr} :
    alignElements align (x :: elements) = .ok items ↔ ∃ here others, align x = .ok here ∧
      alignElements align elements = .ok others ∧ items = here ++ others := by
  rw [alignElements, Except.bind_eq_ok_iff]
  constructor
  · rintro ⟨here, hhere, h⟩
    obtain ⟨others, hothers, h⟩ := Except.bind_eq_ok_iff.1 h
    cases h
    exact ⟨here, others, hhere, hothers, rfl⟩
  · rintro ⟨here, others, hhere, hothers, rfl⟩
    exact ⟨here, hhere, Except.bind_eq_ok_iff.2 ⟨others, hothers, rfl⟩⟩

/-- An entry names what is in it after its key, the map and its position. -/
lemma alignEntries_cons_eq_ok_iff {type : Expr} {align : NameSource → Expr → Shaped (List Aligned)}
    {position : Nat} {e : Expr} {entries : List Expr} :
    alignEntries type align position (e :: entries) = .ok items ↔
      ∃ key x annots w u, e = app (.data .elt) [key, x] annots w u ∧ ∃ here others,
        align (.forced (entryName type position key)) x = .ok here ∧
          alignEntries type align (position + 1) entries = .ok others ∧
            items = here ++ others := by
  constructor
  · intro h
    unfold alignEntries at h
    split at h
    · next heq => cases heq
    · next heq =>
      cases heq
      obtain ⟨here, hhere, h⟩ := Except.bind_eq_ok_iff.1 h
      obtain ⟨others, hothers, h⟩ := Except.bind_eq_ok_iff.1 h
      cases h
      exact ⟨_, _, _, _, _, rfl, here, others, hhere, hothers, rfl⟩
    · cases h
  · rintro ⟨key, x, annots, w, u, rfl, here, others, hhere, hothers, rfl⟩
    rw [alignEntries, hhere, Except.ok_bind, hothers]
    rfl

lemma alignEntries_of_not_isEntry {type e : Expr} {rest : List Expr} (h : ¬ IsEntry e)
    (align : NameSource → Expr → Shaped (List Aligned)) (position : Nat) :
    alignEntries type align position (e :: rest) = .error (.notEntry e) := by
  rw [alignEntries]
  rintro key value annots w u rfl
  exact h ⟨key, value, annots, w, u, rfl⟩

/-- What a slot makes of a value that is no pair, with the value at the front of a queue. -/
lemma align_of_slotItems (hslot : isSlot p) (hv : value.isPair = false)
    (h : slotItems source (app p args annots w u) value = .ok items) (used : Nat)
    (rest : List Expr) :
    align source used (value.pairLeaves ++ rest) (app p args annots w u) = .ok (items, rest) := by
  rw [pairLeaves_of_not_isPair hv, List.singleton_append, align_cons hslot, h]
  rfl

lemma alignValue_eq (type value : Expr) : alignValue type value = alignWhole .own type value := rfl

/-! ### What a slot gives for the values it takes -/

section

variable {a b x : Expr} {args' more' elements : List Expr} {annots' : List String} {w' u' : Bool}

lemma slotItems_of_align {slot : Expr} {result : Shaped (List Aligned)}
    (h : align source 0 [value] slot = result.map fun items => (items, [])) :
    slotItems source slot value = result := by
  rw [slotItems, h, Except.map_map]
  exact congrFun Except.map_id result

lemma slotItems_leaf (h : isStructural p = false) :
    slotItems source (app p args annots w u) value =
      .ok [⟨source.nameFor (app p args annots w u), p, app p args annots w u, value⟩] := by
  rw [slotItems, align]
  · rfl
  -- every primitive with a rule is structural
  all_goals
    rintro rfl
    exact absurd h (by decide)

lemma slotItems_bigMap (n : Int) :
    slotItems source (app (.type .bigMap) args annots w u) (literal (.int n) u') =
      .ok [⟨source.nameFor (app (.type .bigMap) args annots w u), .type .bigMap,
        app (.type .bigMap) args annots w u, literal (.int n) u'⟩] :=
  slotItems_of_align rfl

lemma slotItems_none :
    slotItems source (app (.type .option) args annots w u) (app (.data .none) args' annots' w' u') =
      .ok [⟨source.nameFor (app (.type .option) args annots w u), .type .option,
        app (.type .option) args annots w u, app (.data .none) args' annots' w' u'⟩] :=
  slotItems_of_align rfl

lemma slotItems_some :
    slotItems source (app (.type .option) (a :: more) annots w u)
        (app (.data .some) (x :: more') annots' w' u') =
      alignWhole (source.within (app (.type .option) (a :: more) annots w u)) a x :=
  slotItems_of_align rfl

lemma slotItems_left :
    slotItems source (app (.type .or) (a :: more) annots w u)
        (app (.data .left) (x :: more') annots' w' u') =
      alignWhole (source.within (app (.type .or) (a :: more) annots w u)) a x :=
  slotItems_of_align rfl

lemma slotItems_right :
    slotItems source (app (.type .or) (a :: b :: more) annots w u)
        (app (.data .right) (x :: more') annots' w' u') =
      alignWhole (source.within (app (.type .or) (a :: b :: more) annots w u)) b x :=
  slotItems_of_align rfl

lemma slotItems_list :
    slotItems source (app (.type .list) (a :: more) annots w u) (seq elements u') =
      alignElements (alignWhole (source.within (app (.type .list) (a :: more) annots w u)) a)
        elements :=
  slotItems_of_align rfl

lemma slotItems_map :
    slotItems source (app (.type .map) (a :: b :: more) annots w u) (seq elements u') =
      alignEntries (app (.type .map) (a :: b :: more) annots w u)
        (fun source v => alignWhole source b v) 0 elements :=
  slotItems_of_align rfl

/-! ### The values that a slot takes -/

lemma bigMap_takes (h : slotItems source (app (.type .bigMap) args annots w u) value = .ok items) :
    ∃ n m, value = literal (.int n) m := by
  cases value with
  | literal l m =>
    cases l with
    | int n => exact ⟨n, m, rfl⟩
    | string s => cases h
    | bytes b => cases h
  | seq elements m => cases h
  | app p args annots w u => cases h

lemma option_takes (h : slotItems source (app (.type .option) args annots w u) value = .ok items) :
    (∃ args' annots' w' u', value = app (.data .none) args' annots' w' u') ∨
      ∃ x more' annots' w' u', value = app (.data .some) (x :: more') annots' w' u' := by
  unfold slotItems align at h
  dsimp only at h
  split at h
  · cases h
  · exact Or.inr ⟨_, _, _, _, _, rfl⟩
  · exact Or.inl ⟨_, _, _, _, rfl⟩
  · cases h

lemma or_takes (h : slotItems source (app (.type .or) args annots w u) value = .ok items) :
    (∃ x more' annots' w' u', value = app (.data .left) (x :: more') annots' w' u') ∨
      ∃ x more' annots' w' u', value = app (.data .right) (x :: more') annots' w' u' := by
  unfold slotItems align at h
  dsimp only at h
  split at h
  · cases h
  · cases h
  · exact Or.inl ⟨_, _, _, _, _, rfl⟩
  · exact Or.inr ⟨_, _, _, _, _, rfl⟩
  · cases h

lemma list_takes
    (h : slotItems source (app (.type .list) (a :: more) annots w u) value = .ok items) :
    ∃ elements m, value = seq elements m := by
  cases value with
  | literal l m => cases h
  | seq elements m => exact ⟨elements, m, rfl⟩
  | app p args annots w u => cases h

lemma map_takes
    (h : slotItems source (app (.type .map) (a :: b :: more) annots w u) value = .ok items) :
    ∃ elements m, value = seq elements m := by
  cases value with
  | literal l m => cases h
  | seq elements m => exact ⟨elements, m, rfl⟩
  | app p args annots w u => cases h

end

/-! ### One step of aligning -/

/-- What a slot gives for a value that it takes, down to the values that are aligned with queues of
their own. -/
inductive Takes (source : NameSource) : (slot value : Expr) → List Aligned → Prop
  | bigMap {args : List Expr} {annots : List String} {w u u' : Bool} (n : Int) :
      Takes source (app (.type .bigMap) args annots w u) (literal (.int n) u')
        [⟨source.nameFor (app (.type .bigMap) args annots w u), .type .bigMap,
          app (.type .bigMap) args annots w u, literal (.int n) u'⟩]
  | none {args args' : List Expr} {annots annots' : List String} {w u w' u' : Bool} :
      Takes source (app (.type .option) args annots w u) (app (.data .none) args' annots' w' u')
        [⟨source.nameFor (app (.type .option) args annots w u), .type .option,
          app (.type .option) args annots w u, app (.data .none) args' annots' w' u'⟩]
  | some {a x : Expr} {more more' : List Expr} {annots annots' : List String} {w u w' u' : Bool}
      {items : List Aligned} :
      alignWhole (source.within (app (.type .option) (a :: more) annots w u)) a x = .ok items →
      Takes source (app (.type .option) (a :: more) annots w u)
        (app (.data .some) (x :: more') annots' w' u') items
  | left {a x : Expr} {more more' : List Expr} {annots annots' : List String} {w u w' u' : Bool}
      {items : List Aligned} :
      alignWhole (source.within (app (.type .or) (a :: more) annots w u)) a x = .ok items →
      Takes source (app (.type .or) (a :: more) annots w u)
        (app (.data .left) (x :: more') annots' w' u') items
  | right {a b x : Expr} {more more' : List Expr} {annots annots' : List String}
      {w u w' u' : Bool} {items : List Aligned} :
      alignWhole (source.within (app (.type .or) (a :: b :: more) annots w u)) b x = .ok items →
      Takes source (app (.type .or) (a :: b :: more) annots w u)
        (app (.data .right) (x :: more') annots' w' u') items
  | list {a : Expr} {more elements : List Expr} {annots : List String} {w u u' : Bool}
      {items : List Aligned} :
      alignElements (alignWhole (source.within (app (.type .list) (a :: more) annots w u)) a)
        elements = .ok items →
      Takes source (app (.type .list) (a :: more) annots w u) (seq elements u') items
  | map {a b : Expr} {more entries : List Expr} {annots : List String} {w u u' : Bool}
      {items : List Aligned} :
      alignEntries (app (.type .map) (a :: b :: more) annots w u)
        (fun source v => alignWhole source b v) 0 entries = .ok items →
      Takes source (app (.type .map) (a :: b :: more) annots w u) (seq entries u') items
  | leaf {p : Primitive} {args : List Expr} {annots : List String} {w u : Bool} {value : Expr} :
      isStructural p = false →
      Takes source (app p args annots w u) value
        [⟨source.nameFor (app p args annots w u), p, app p args annots w u, value⟩]

/-- The steps that are listed are all there are. -/
lemma takes_of_slotItems (hslot : isSlot p)
    (h : slotItems source (app p args annots w u) value = .ok items) :
    Takes source (app p args annots w u) value items := by
  by_cases hp : isStructural p
  · rcases isStructural_iff.1 hp with rfl | rfl | rfl | rfl | rfl | rfl | rfl
    · exact absurd hslot (by decide)
    · exact absurd hslot (by decide)
    · obtain ⟨n, m, rfl⟩ := bigMap_takes h
      rw [slotItems_bigMap] at h
      cases h
      exact .bigMap n
    · match args, h with
      | a :: b :: more, h =>
        obtain ⟨entries, m, rfl⟩ := map_takes h
        exact .map (slotItems_map ▸ h)
    · rcases option_takes h with ⟨_, _, _, _, rfl⟩ | ⟨x, _, _, _, _, rfl⟩
      · rw [slotItems_none] at h
        cases h
        exact .none
      · match args, h with
        | a :: more, h => exact .some (slotItems_some ▸ h)
    · match args, h with
      | a :: more, h =>
        obtain ⟨elements, m, rfl⟩ := list_takes h
        exact .list (slotItems_list ▸ h)
    · rcases or_takes h with ⟨x, _, _, _, _, rfl⟩ | ⟨x, _, _, _, _, rfl⟩
      · match args, h with
        | a :: more, h => exact .left (slotItems_left ▸ h)
      · match args, h with
        | a :: b :: more, h => exact .right (slotItems_right ▸ h)
  · have hleaf := Bool.eq_false_of_not_eq_true hp
    rw [slotItems_leaf hleaf] at h
    cases h
    exact .leaf hleaf

lemma slotItems_of_takes {slot : Expr} (h : Takes source slot value items) :
    slotItems source slot value = .ok items := by
  cases h with
  | bigMap n => exact slotItems_bigMap n
  | none => exact slotItems_none
  | some h => rw [slotItems_some, h]
  | left h => rw [slotItems_left, h]
  | right h => rw [slotItems_right, h]
  | list h => rw [slotItems_list, h]
  | map h => rw [slotItems_map, h]
  | leaf h => exact slotItems_leaf h

/-- A slot takes the value at the front of the queue and leaves the rest. -/
lemma align_slot_eq_ok_iff (hslot : isSlot p) :
    align source used queue (app p args annots w u) = .ok (items, rest) ↔
      ∃ value, queue = value :: rest ∧ Takes source (app p args annots w u) value items := by
  cases queue with
  | nil =>
    rw [align_nil hslot]
    simp
  | cons value queue =>
    rw [align_cons hslot, Except.map_eq_ok_iff]
    constructor
    · rintro ⟨items', hitems, heq⟩
      cases heq
      exact ⟨value, rfl, takes_of_slotItems hslot hitems⟩
    · rintro ⟨value', heq, htakes⟩
      cases heq
      exact ⟨items, slotItems_of_takes htakes, rfl⟩

end Storage

end Michelson
