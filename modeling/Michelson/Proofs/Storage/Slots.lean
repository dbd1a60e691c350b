/-
# The values that line up with a type

The *slots* of a storage type are its nodes that are neither pairs nor storage sections, from left
to right.  A value lines up with the type when its leaves are as many as the slots and each slot
accepts the leaf at its own place; `SlotAccepts` says what a slot accepts, going down into what the
slot holds in the same way.

The main statement is `namedItems_isOk_iff`: for a type with all the arguments it needs, aligning
succeeds for exactly these values.  It follows from the invariant `AlignsBySlots`: what is taken off
a queue is as long as the slots, whatever the values are, so a value that is missing, left over or
of the wrong form is a fault at every depth.
-/
import Michelson.Proofs.Storage.Align

namespace Michelson.Storage

open Michelson.Expr

/-! ### Slots -/

mutual

/-- The slots of a type. -/
def slots : Expr → List Expr
  | .app p args annots w u =>
    match p, args with
    | .keyword .storage, inner :: _ => slots inner
    | .type .pair, args => slotsAll args
    | p, args => [.app p args annots w u]
  | e => [e]

/-- The slots of some types, one after the other. -/
def slotsAll : List Expr → List Expr
  | [] => []
  | e :: rest => slots e ++ slotsAll rest

end

/-- The values that a slot accepts: a big map a number, an option one of its two forms, a choice one
of its sides, a list a sequence, a map a sequence of entries, every other slot every value.  What a
slot holds has slots of its own, and they line up with the leaves of the value that is held. -/
inductive SlotAccepts : Expr → Expr → Prop
  | bigMap {args : List Expr} {annots : List String} {w u u' : Bool} (n : Int) :
      SlotAccepts (app (.type .bigMap) args annots w u) (literal (.int n) u')
  | none {args args' : List Expr} {annots annots' : List String} {w u w' u' : Bool} :
      SlotAccepts (app (.type .option) args annots w u) (app (.data .none) args' annots' w' u')
  | some {a x : Expr} {more more' : List Expr} {annots annots' : List String} {w u w' u' : Bool} :
      List.Forall₂ SlotAccepts (slots a) x.pairLeaves →
      SlotAccepts (app (.type .option) (a :: more) annots w u)
        (app (.data .some) (x :: more') annots' w' u')
  | left {a x : Expr} {more more' : List Expr} {annots annots' : List String} {w u w' u' : Bool} :
      List.Forall₂ SlotAccepts (slots a) x.pairLeaves →
      SlotAccepts (app (.type .or) (a :: more) annots w u)
        (app (.data .left) (x :: more') annots' w' u')
  | right {a b x : Expr} {more more' : List Expr} {annots annots' : List String}
      {w u w' u' : Bool} : List.Forall₂ SlotAccepts (slots b) x.pairLeaves →
      SlotAccepts (app (.type .or) (a :: b :: more) annots w u)
        (app (.data .right) (x :: more') annots' w' u')
  | list {a : Expr} {more elements : List Expr} {annots : List String} {w u u' : Bool} :
      (∀ x ∈ elements, List.Forall₂ SlotAccepts (slots a) x.pairLeaves) →
      SlotAccepts (app (.type .list) (a :: more) annots w u) (seq elements u')
  | map {a b : Expr} {more entries : List Expr} {annots : List String} {w u u' : Bool} :
      (∀ e ∈ entries, IsEntry e) →
      (∀ e ∈ entries, ∀ x, e.arg? 1 = .some x → List.Forall₂ SlotAccepts (slots b) x.pairLeaves) →
      SlotAccepts (app (.type .map) (a :: b :: more) annots w u) (seq entries u')
  | leaf {p : Primitive} {args : List Expr} {annots : List String} {w u : Bool} {value : Expr} :
      isStructural p = false → SlotAccepts (app p args annots w u) value

/-- The types that have the arguments that aligning asks for, as far as it goes into them. -/
inductive IsComplete : Expr → Prop
  | storage {inner : Expr} {more : List Expr} {annots : List String} {w u : Bool} :
      IsComplete inner → IsComplete (app (.keyword .storage) (inner :: more) annots w u)
  | pair {args : List Expr} {annots : List String} {w u : Bool} :
      (∀ a ∈ args, IsComplete a) → IsComplete (app (.type .pair) args annots w u)
  | option {a : Expr} {more : List Expr} {annots : List String} {w u : Bool} :
      IsComplete a → IsComplete (app (.type .option) (a :: more) annots w u)
  | or {a b : Expr} {more : List Expr} {annots : List String} {w u : Bool} :
      IsComplete a → IsComplete b → IsComplete (app (.type .or) (a :: b :: more) annots w u)
  | list {a : Expr} {more : List Expr} {annots : List String} {w u : Bool} :
      IsComplete a → IsComplete (app (.type .list) (a :: more) annots w u)
  | map {a b : Expr} {more : List Expr} {annots : List String} {w u : Bool} :
      IsComplete b → IsComplete (app (.type .map) (a :: b :: more) annots w u)
  | bigMap {args : List Expr} {annots : List String} {w u : Bool} :
      IsComplete (app (.type .bigMap) args annots w u)
  | leaf {p : Primitive} {args : List Expr} {annots : List String} {w u : Bool} :
      isStructural p = false → IsComplete (app p args annots w u)

variable {source : NameSource} {used : Nat} {type value : Expr} {queue rest : List Expr}
  {p : Primitive} {args : List Expr} {annots : List String} {w u : Bool}

lemma slots_of_isSlot (h : isSlot p) : slots (app p args annots w u) = [app p args annots w u] := by
  rw [slots]
  all_goals
    intros
    subst_vars
    exact absurd h (by decide)

lemma forall₂_append_left_iff {α β : Type} {R : α → β → Prop} {l₁ l₂ : List α} {l : List β} :
    List.Forall₂ R (l₁ ++ l₂) l ↔
      ∃ r₁ r₂, l = r₁ ++ r₂ ∧ List.Forall₂ R l₁ r₁ ∧ List.Forall₂ R l₂ r₂ := by
  constructor
  · intro h
    refine ⟨l.take l₁.length, l.drop l₁.length, (List.take_append_drop _ _).symm, ?_, ?_⟩
    · simpa using List.forall₂_take l₁.length h
    · simpa using List.forall₂_drop l₁.length h
  · rintro ⟨r₁, r₂, rfl, h₁, h₂⟩
    exact List.rel_append h₁ h₂

/-! ### The members of a collection -/

lemma alignElements_isOk_iff {align : Expr → Shaped (List Aligned)} {elements : List Expr} :
    (∃ items, alignElements align elements = .ok items) ↔
      ∀ x ∈ elements, ∃ items, align x = .ok items := by
  induction elements with
  | nil => simp [alignElements]
  | cons x rest ih =>
    rw [List.forall_mem_cons, ← ih]
    constructor
    · rintro ⟨items, h⟩
      obtain ⟨here, others, hhere, hothers, -⟩ := alignElements_cons_eq_ok_iff.1 h
      exact ⟨⟨here, hhere⟩, others, hothers⟩
    · rintro ⟨⟨here, hhere⟩, others, hothers⟩
      exact ⟨_, alignElements_cons_eq_ok_iff.2 ⟨here, others, hhere, hothers, rfl⟩⟩

lemma alignEntries_isOk_iff {type : Expr} {align : NameSource → Expr → Shaped (List Aligned)}
    {P : Expr → Prop} (halign : ∀ source x, (∃ items, align source x = .ok items) ↔ P x)
    {entries : List Expr} (position : Nat) :
    (∃ items, alignEntries type align position entries = .ok items) ↔
      (∀ e ∈ entries, IsEntry e) ∧ ∀ e ∈ entries, ∀ x, e.arg? 1 = some x → P x := by
  induction entries generalizing position with
  | nil => simp [alignEntries]
  | cons e rest ih =>
    rw [List.forall_mem_cons, List.forall_mem_cons, and_and_and_comm, ← ih (position + 1)]
    constructor
    · rintro ⟨items, h⟩
      obtain ⟨key, x, annots, w, u, rfl, here, others, hhere, hothers, -⟩ :=
        alignEntries_cons_eq_ok_iff.1 h
      refine ⟨⟨⟨key, x, annots, w, u, rfl⟩, ?_⟩, others, hothers⟩
      rintro x' hx'
      cases hx'
      exact (halign _ x).1 ⟨here, hhere⟩
    · rintro ⟨⟨⟨key, x, annots, w, u, rfl⟩, hvalue⟩, others, hothers⟩
      obtain ⟨here, hhere⟩ := (halign (.forced (entryName type position key)) x).2 (hvalue x rfl)
      exact ⟨_, alignEntries_cons_eq_ok_iff.2
        ⟨key, x, annots, w, u, rfl, here, others, hhere, hothers, rfl⟩⟩

/-! ### Queues -/

/-- Aligning the type takes off every queue what the slots accept, one value for each slot, and
succeeds exactly when they accept it. -/
def AlignsBySlots (type : Expr) : Prop :=
  ∀ source used queue rest, (∃ items, align source used queue type = .ok (items, rest)) ↔
    ∃ front, queue = front ++ rest ∧ List.Forall₂ SlotAccepts (slots type) front

lemma AlignsBySlots.whole (h : AlignsBySlots type) (source : NameSource) (value : Expr) :
    (∃ items, alignWhole source type value = .ok items) ↔
      List.Forall₂ SlotAccepts (slots type) value.pairLeaves := by
  simp only [alignWhole_eq_ok_iff, h source 0, List.append_nil, exists_eq_left']

lemma alignAll_isOk_iff {types : List Expr} (h : ∀ type ∈ types, AlignsBySlots type)
    (source : NameSource) (used : Nat) (queue rest : List Expr) :
    (∃ items, alignAll source used queue types = .ok (items, rest)) ↔
      ∃ front, queue = front ++ rest ∧ List.Forall₂ SlotAccepts (slotsAll types) front := by
  induction types generalizing used queue with
  | nil => simp [alignAll, slotsAll, eq_comm]
  | cons type types ih =>
    have ih' := ih fun a ha => h a (List.mem_cons_of_mem type ha)
    have htype := h type List.mem_cons_self
    rw [slotsAll]
    constructor
    · rintro ⟨items, halign⟩
      obtain ⟨here, mid, hhere, others, rest', hothers, heq⟩ := alignAll_cons_eq_ok_iff.1 halign
      cases heq
      obtain ⟨front, rfl, hfront⟩ := (htype source used queue mid).1 ⟨here, hhere⟩
      obtain ⟨front', rfl, hfront'⟩ := (ih' _ _).1 ⟨others, hothers⟩
      exact ⟨front ++ front', (List.append_assoc _ _ _).symm,
        forall₂_append_left_iff.2 ⟨front, front', rfl, hfront, hfront'⟩⟩
    · rintro ⟨front, rfl, hfront⟩
      obtain ⟨front, front', rfl, hhere, hothers⟩ := forall₂_append_left_iff.1 hfront
      obtain ⟨here, hhere⟩ :=
        (htype source used (front ++ front' ++ rest) (front' ++ rest)).2
          ⟨front, List.append_assoc _ _ _, hhere⟩
      obtain ⟨others, hothers⟩ := (ih' _ _).2 ⟨front', rfl, hothers⟩
      exact ⟨here ++ others, alignAll_cons_eq_ok_iff.2 ⟨_, _, hhere, _, _, hothers, rfl⟩⟩

/-- For a slot it is enough to look at one value. -/
lemma alignsBySlots_of_slot (hslot : isSlot p)
    (h : ∀ source value, (∃ items, slotItems source (app p args annots w u) value = .ok items) ↔
      SlotAccepts (app p args annots w u) value) :
    AlignsBySlots (app p args annots w u) := by
  intro source used queue rest
  rw [slots_of_isSlot hslot]
  cases queue with
  | nil =>
    rw [align_nil hslot]
    constructor
    · rintro ⟨items, h⟩
      cases h
    -- no front of an empty queue is as long as one slot
    · rintro ⟨front, hfront, haccepts⟩
      obtain ⟨rfl, -⟩ := List.append_eq_nil_iff.1 hfront.symm
      cases haccepts
  | cons value queue =>
    rw [align_cons hslot]
    constructor
    · rintro ⟨items, halign⟩
      obtain ⟨items', hitems, heq⟩ := Except.map_eq_ok_iff.1 halign
      cases heq
      exact ⟨[value], rfl, .cons ((h source value).1 ⟨_, hitems⟩) .nil⟩
    · rintro ⟨front, hfront, haccepts⟩
      cases haccepts with
      | cons hvalue hnil =>
        cases hnil
        cases hfront
        obtain ⟨items, hitems⟩ := (h source value).2 hvalue
        exact ⟨items, by rw [hitems]; rfl⟩

/-! ### One slot -/

section

variable {a b : Expr} {more : List Expr}

lemma bigMap_isOk_iff :
    (∃ items, slotItems source (app (.type .bigMap) args annots w u) value = .ok items) ↔
      SlotAccepts (app (.type .bigMap) args annots w u) value := by
  constructor
  · rintro ⟨items, hitems⟩
    obtain ⟨n, m, rfl⟩ := bigMap_takes hitems
    exact .bigMap n
  · intro haccepts
    cases haccepts with
    | bigMap n => exact ⟨_, slotItems_bigMap n⟩
    | leaf hp => cases hp

lemma option_isOk_iff (ha : AlignsBySlots a) :
    (∃ items, slotItems source (app (.type .option) (a :: more) annots w u) value = .ok items) ↔
      SlotAccepts (app (.type .option) (a :: more) annots w u) value := by
  constructor
  · rintro ⟨items, hitems⟩
    rcases option_takes hitems with ⟨_, _, _, _, rfl⟩ | ⟨x, _, _, _, _, rfl⟩
    · exact .none
    · rw [slotItems_some] at hitems
      exact .some ((ha.whole _ x).1 ⟨items, hitems⟩)
  · intro haccepts
    cases haccepts with
    | none => exact ⟨_, slotItems_none⟩
    | some hx =>
      rw [slotItems_some]
      exact (ha.whole _ _).2 hx
    | leaf hp => cases hp

lemma or_isOk_iff (ha : AlignsBySlots a) (hb : AlignsBySlots b) :
    (∃ items, slotItems source (app (.type .or) (a :: b :: more) annots w u) value = .ok items) ↔
      SlotAccepts (app (.type .or) (a :: b :: more) annots w u) value := by
  constructor
  · rintro ⟨items, hitems⟩
    rcases or_takes hitems with ⟨x, _, _, _, _, rfl⟩ | ⟨x, _, _, _, _, rfl⟩
    · rw [slotItems_left] at hitems
      exact .left ((ha.whole _ x).1 ⟨items, hitems⟩)
    · rw [slotItems_right] at hitems
      exact .right ((hb.whole _ x).1 ⟨items, hitems⟩)
  · intro haccepts
    cases haccepts with
    | left hx =>
      rw [slotItems_left]
      exact (ha.whole _ _).2 hx
    | right hx =>
      rw [slotItems_right]
      exact (hb.whole _ _).2 hx
    | leaf hp => cases hp

lemma list_isOk_iff (ha : AlignsBySlots a) :
    (∃ items, slotItems source (app (.type .list) (a :: more) annots w u) value = .ok items) ↔
      SlotAccepts (app (.type .list) (a :: more) annots w u) value := by
  constructor
  · rintro ⟨items, hitems⟩
    obtain ⟨elements, m, rfl⟩ := list_takes hitems
    rw [slotItems_list] at hitems
    have hall := alignElements_isOk_iff.1 ⟨items, hitems⟩
    exact .list fun x hx => (ha.whole _ x).1 (hall x hx)
  · intro haccepts
    cases haccepts with
    | list hall =>
      rw [slotItems_list]
      exact alignElements_isOk_iff.2 fun x hx => (ha.whole _ x).2 (hall x hx)
    | leaf hp => cases hp

lemma map_isOk_iff (hb : AlignsBySlots b) :
    (∃ items, slotItems source (app (.type .map) (a :: b :: more) annots w u) value = .ok items) ↔
      SlotAccepts (app (.type .map) (a :: b :: more) annots w u) value := by
  constructor
  · rintro ⟨items, hitems⟩
    obtain ⟨entries, m, rfl⟩ := map_takes hitems
    rw [slotItems_map] at hitems
    obtain ⟨hentries, hvalues⟩ := (alignEntries_isOk_iff hb.whole 0).1 ⟨items, hitems⟩
    exact .map hentries hvalues
  · intro haccepts
    cases haccepts with
    | map hentries hvalues =>
      rw [slotItems_map]
      exact (alignEntries_isOk_iff hb.whole 0).2 ⟨hentries, hvalues⟩
    | leaf hp => cases hp

end

/-- By induction on the type: what a slot holds is aligned with a queue of its own, so every queue
has to be covered at once. -/
theorem alignsBySlots (h : IsComplete type) : AlignsBySlots type := by
  induction h with
  | storage _ ih =>
    intro source used queue rest
    rw [align_storage, slots]
    exact ih source used queue rest
  | pair _ ih =>
    intro source used queue rest
    rw [align_pair, slots]
    exact alignAll_isOk_iff ih source used queue rest
  | option _ ih => exact alignsBySlots_of_slot rfl fun _ _ => option_isOk_iff ih
  | or _ _ iha ihb => exact alignsBySlots_of_slot rfl fun _ _ => or_isOk_iff iha ihb
  | list _ ih => exact alignsBySlots_of_slot rfl fun _ _ => list_isOk_iff ih
  | map _ ih => exact alignsBySlots_of_slot rfl fun _ _ => map_isOk_iff ih
  | bigMap => exact alignsBySlots_of_slot rfl fun _ _ => bigMap_isOk_iff
  | leaf hp =>
    refine alignsBySlots_of_slot (isSlot_of_not_isStructural hp) fun source value => ?_
    exact iff_of_true ⟨_, slotItems_leaf hp⟩ (.leaf hp)

/-! ### Values -/

/-- The values whose leaves are as many as the slots, each of them accepted by the slot at its own
place. -/
def LinesUp (type value : Expr) : Prop :=
  value.pairLeaves.length = (slots type).length ∧
    ∀ (i : Nat) (slot leaf : Expr), (slots type)[i]? = some slot →
      value.pairLeaves[i]? = some leaf → SlotAccepts slot leaf

lemma linesUp_iff :
    LinesUp type value ↔ List.Forall₂ SlotAccepts (slots type) value.pairLeaves := by
  rw [LinesUp, List.forall₂_iff_get]
  constructor
  · rintro ⟨hlength, h⟩
    refine ⟨hlength.symm, fun i hi hi' => h i _ _ ?_ ?_⟩
    · exact List.getElem?_eq_getElem hi
    · exact List.getElem?_eq_getElem hi'
  · rintro ⟨hlength, h⟩
    refine ⟨hlength.symm, fun i slot leaf hslot hleaf => ?_⟩
    obtain ⟨hi, rfl⟩ := List.getElem?_eq_some_iff.1 hslot
    obtain ⟨hi', rfl⟩ := List.getElem?_eq_some_iff.1 hleaf
    exact h i hi hi'

/-- For a type with all the arguments it needs, the values that have items are those that line up
with it.  Every other value is a fault of shape. -/
theorem namedItems_isOk_iff (h : IsComplete type) (value : Expr) :
    ((∃ items, namedItems type value = .ok items) ↔ LinesUp type value) ∧
      (¬ LinesUp type value → ∃ fault, namedItems type value = .error fault) := by
  have hnamed : (∃ items, namedItems type value = .ok items) ↔
      ∃ items, alignWhole .own type value = .ok items := by
    rw [namedItems, alignValue_eq]
    cases alignWhole .own type value with
    | ok items => exact iff_of_true ⟨_, rfl⟩ ⟨_, rfl⟩
    | error fault => simp
  have hiff := (alignsBySlots h).whole .own value
  rw [hnamed, hiff, linesUp_iff]
  refine ⟨Iff.rfl, fun hno => ?_⟩
  rw [← hiff, ← hnamed] at hno
  cases hresult : namedItems type value with
  | ok items => exact absurd ⟨items, hresult⟩ hno
  | error fault => exact ⟨fault, rfl⟩

/-- A type of three slots accepts a flat pair of three values and no pair of two. -/
theorem namedItems_isOk_iff_three_slots :
    let type := type2 .pair (type0 .nat)
      (type2 .pair (type1 .option (type0 .string)) (type2 .bigMap (type0 .nat) (type0 .nat)))
    (∃ items, namedItems type (apply (.data .pair) [int 1, data0 .none, int 7]) = .ok items) ∧
      ∃ fault, namedItems type (apply (.data .pair) [int 1, data0 .none]) = .error fault := by
  intro type
  have hcomplete : IsComplete type := by
    refine .pair (List.forall_mem_cons.2 ⟨.leaf rfl, List.forall_mem_singleton.2 (.pair ?_)⟩)
    exact List.forall_mem_cons.2 ⟨.option (.leaf rfl), List.forall_mem_singleton.2 .bigMap⟩
  constructor
  · refine (namedItems_isOk_iff hcomplete _).1.2 (linesUp_iff.2 ?_)
    exact .cons (.leaf rfl) (.cons .none (.cons (.bigMap 7) .nil))
  · refine (namedItems_isOk_iff hcomplete _).2 fun hlines => ?_
    exact absurd hlines.1 (by decide)

end Michelson.Storage
