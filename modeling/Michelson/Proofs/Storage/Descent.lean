/-
# Aligning follows the type

A value *fits* a type when the two trees can be gone through together: a pair by a pair, an option
by one of its two forms, a choice by one of its sides, a collection by a sequence of fitting
members. `descent` goes through them in this way, without a queue, and lists what it meets at the
ends. Aligning forgets the pairs of the value and finds them again from the type alone.

The main statement is `namedItems_of_fits`: the items of a fitting value are those of the descent.
The invariant behind it is that aligning a type takes exactly the leaves of a fitting value off the
front of the queue and leaves the rest as it is (`align_of_fits`).
-/
import Michelson.Proofs.Storage.Align

namespace Michelson.Storage

open Michelson.Expr

/-- The values that have the shape of a type.  A pair has two parts on both sides, an option may be
empty, a big map stands as its number, and a type without a rule of its own takes every value that
is no pair. -/
inductive Fits : Expr → Expr → Prop
  | pair {p : Primitive} {a b x y : Expr} {annots annots' : List String} {w u w' u' : Bool} :
      p.isPair → Fits a x → Fits b y →
      Fits (app (.type .pair) [a, b] annots w u) (app p [x, y] annots' w' u')
  | none {args args' : List Expr} {annots annots' : List String} {w u w' u' : Bool} :
      Fits (app (.type .option) args annots w u) (app (.data .none) args' annots' w' u')
  | some {a x : Expr} {more more' : List Expr} {annots annots' : List String} {w u w' u' : Bool} :
      Fits a x →
      Fits (app (.type .option) (a :: more) annots w u)
        (app (.data .some) (x :: more') annots' w' u')
  | left {a x : Expr} {more more' : List Expr} {annots annots' : List String} {w u w' u' : Bool} :
      Fits a x →
      Fits (app (.type .or) (a :: more) annots w u) (app (.data .left) (x :: more') annots' w' u')
  | right {a b x : Expr} {more more' : List Expr} {annots annots' : List String}
      {w u w' u' : Bool} : Fits b x →
      Fits (app (.type .or) (a :: b :: more) annots w u)
        (app (.data .right) (x :: more') annots' w' u')
  | list {a : Expr} {more elements : List Expr} {annots : List String} {w u u' : Bool} :
      (∀ x ∈ elements, Fits a x) →
      Fits (app (.type .list) (a :: more) annots w u) (seq elements u')
  | map {a b : Expr} {more entries : List Expr} {annots : List String} {w u u' : Bool} :
      (∀ e ∈ entries, IsEntry e) → (∀ e ∈ entries, ∀ x, e.arg? 1 = some x → Fits b x) →
      Fits (app (.type .map) (a :: b :: more) annots w u) (seq entries u')
  | bigMap {args : List Expr} {annots : List String} {w u u' : Bool} (n : Int) :
      Fits (app (.type .bigMap) args annots w u) (literal (.int n) u')
  | leaf {p : Primitive} {args : List Expr} {annots : List String} {w u : Bool} {value : Expr} :
      isStructural p = false → value.isPair = false → Fits (app p args annots w u) value

/-- The places that are met on the way down a type and a value together, in order: big maps, empty
options and the types without a rule. -/
def descent : (type value : Expr) → List Place
  | .app p args annots w u, value =>
    match p, args, value with
    | .type .pair, [a, b], .app _ [x, y] _ _ _ => descent a x ++ descent b y
    | .type .option, a :: _, .app (.data .some) (x :: _) _ _ _ => descent a x
    | .type .or, a :: _, .app (.data .left) (x :: _) _ _ _ => descent a x
    | .type .or, _ :: b :: _, .app (.data .right) (x :: _) _ _ _ => descent b x
    | .type .list, a :: _, .seq elements _ => elements.flatMap fun x => descent a x
    | .type .map, _ :: b :: _, .seq entries _ =>
      entries.flatMap fun e => ((e.arg? 1).map fun x => descent b x).getD []
    | p, args, value => [(p, .app p args annots w u, value)]
  | _, _ => []

/-! ### The members of a collection -/

variable {places : Expr → List Place}

lemma alignElements_places {align : Expr → Shaped (List Aligned)} {elements : List Expr}
    (h : ∀ x ∈ elements, ∃ items, align x = .ok items ∧ items.map Aligned.place = places x) :
    ∃ items, alignElements align elements = .ok items ∧
      items.map Aligned.place = elements.flatMap places := by
  induction elements with
  | nil => exact ⟨[], rfl, rfl⟩
  | cons x rest ih =>
    obtain ⟨items, hitems, hplaces⟩ := h x List.mem_cons_self
    obtain ⟨others, hothers, hrest⟩ := ih fun y hy => h y (List.mem_cons_of_mem x hy)
    refine ⟨items ++ others, ?_, ?_⟩
    · exact alignElements_cons_eq_ok_iff.2 ⟨items, others, hitems, hothers, rfl⟩
    · rw [List.map_append, hplaces, hrest, List.flatMap_cons]

lemma alignEntries_places {type : Expr} {align : NameSource → Expr → Shaped (List Aligned)}
    {entries : List Expr} (hentries : ∀ e ∈ entries, IsEntry e)
    (h : ∀ e ∈ entries, ∀ x, e.arg? 1 = some x → ∀ source,
      ∃ items, align source x = .ok items ∧ items.map Aligned.place = places x) (position : Nat) :
    ∃ items, alignEntries type align position entries = .ok items ∧
      items.map Aligned.place = entries.flatMap fun e => ((e.arg? 1).map places).getD [] := by
  induction entries generalizing position with
  | nil => exact ⟨[], rfl, rfl⟩
  | cons e rest ih =>
    obtain ⟨key, x, annots, w, u, rfl⟩ := hentries e List.mem_cons_self
    obtain ⟨items, hitems, hplaces⟩ :=
      h _ List.mem_cons_self x rfl (.forced (entryName type position key))
    obtain ⟨others, hothers, hrest⟩ :=
      ih (fun a ha => hentries a (List.mem_cons_of_mem _ ha))
        (fun a ha => h a (List.mem_cons_of_mem _ ha)) (position + 1)
    refine ⟨items ++ others, ?_, ?_⟩
    · exact alignEntries_cons_eq_ok_iff.2
        ⟨key, x, annots, w, u, rfl, items, others, hitems, hothers, rfl⟩
    · rw [List.map_append, hplaces, hrest, List.flatMap_cons]
      rfl

/-! ### Fitting values -/

variable {type value : Expr}

lemma descent_none {args args' : List Expr} {annots annots' : List String} {w u w' u' : Bool} :
    descent (app (.type .option) args annots w u) (app (.data .none) args' annots' w' u') =
      [(.type .option, app (.type .option) args annots w u,
        app (.data .none) args' annots' w' u')] := by
  cases args <;> rfl

lemma descent_leaf {p : Primitive} {args : List Expr} {annots : List String} {w u : Bool}
    (h : isStructural p = false) :
    descent (app p args annots w u) value = [(p, app p args annots w u, value)] := by
  rw [descent]
  -- a primitive with a rule is structural
  all_goals
    intros
    subst_vars
    exact absurd h (by decide)

/-- The same with a queue of its own. -/
lemma alignWhole_of_align
    (h : ∀ source used rest, ∃ items,
      align source used (value.pairLeaves ++ rest) type = .ok (items, rest) ∧
        items.map Aligned.place = descent type value) (source : NameSource) :
    ∃ items, alignWhole source type value = .ok items ∧
      items.map Aligned.place = descent type value := by
  obtain ⟨items, hitems, hplaces⟩ := h source 0 []
  rw [List.append_nil] at hitems
  exact ⟨items, alignWhole_eq_ok_iff.2 hitems, hplaces⟩

/-- Aligning takes the leaves of a fitting value off the queue, leaves the rest as it is, and meets
the places of the descent. -/
theorem align_of_fits (h : Fits type value) (source : NameSource) (used : Nat) (rest : List Expr) :
    ∃ items, align source used (value.pairLeaves ++ rest) type = .ok (items, rest) ∧
      items.map Aligned.place = descent type value := by
  induction h generalizing source used rest with
  | @pair p a b x y annots annots' w u w' u' hp _ _ iha ihb =>
    have hleaves : (app p [x, y] annots' w' u').pairLeaves = x.pairLeaves ++ y.pairLeaves := by
      rw [pairLeaves, if_pos hp, pairLeavesAll, pairLeavesAll, pairLeavesAll, List.append_nil]
    -- the second part starts where the first one has stopped, whatever was counted until there
    obtain ⟨items, hitems, hplaces⟩ := iha source used (y.pairLeaves ++ rest)
    obtain ⟨others, hothers, hrest⟩ := ihb source _ rest
    refine ⟨items ++ (others ++ []), ?_, ?_⟩
    · rw [align_pair, hleaves, List.append_assoc]
      exact alignAll_cons_eq_ok_iff.2 ⟨_, _, hitems, _, _,
        alignAll_cons_eq_ok_iff.2 ⟨_, _, hothers, _, _, rfl, rfl⟩, rfl⟩
    · rw [List.append_nil, List.map_append, hplaces, hrest]
      rfl
  | none => exact ⟨_, align_of_slotItems rfl rfl slotItems_none used rest, descent_none.symm⟩
  | some _ ih =>
    obtain ⟨items, hitems, hplaces⟩ := alignWhole_of_align ih (source.within _)
    exact ⟨items, align_of_slotItems rfl rfl (slotItems_some.trans hitems) used rest, hplaces⟩
  | left _ ih =>
    obtain ⟨items, hitems, hplaces⟩ := alignWhole_of_align ih (source.within _)
    exact ⟨items, align_of_slotItems rfl rfl (slotItems_left.trans hitems) used rest, hplaces⟩
  | right _ ih =>
    obtain ⟨items, hitems, hplaces⟩ := alignWhole_of_align ih (source.within _)
    exact ⟨items, align_of_slotItems rfl rfl (slotItems_right.trans hitems) used rest, hplaces⟩
  | list _ ih =>
    obtain ⟨items, hitems, hplaces⟩ :=
      alignElements_places fun x hx => alignWhole_of_align (ih x hx) (source.within _)
    exact ⟨items, align_of_slotItems rfl rfl (slotItems_list.trans hitems) used rest, hplaces⟩
  | map hentries _ ih =>
    obtain ⟨items, hitems, hplaces⟩ :=
      alignEntries_places hentries (fun e he x hx => alignWhole_of_align (ih e he x hx)) 0
    exact ⟨items, align_of_slotItems rfl rfl (slotItems_map.trans hitems) used rest, hplaces⟩
  | bigMap n => exact ⟨_, align_of_slotItems rfl rfl (slotItems_bigMap n) used rest, rfl⟩
  | leaf hp hv =>
    exact ⟨_, align_of_slotItems (isSlot_of_not_isStructural hp) hv (slotItems_leaf hp) used rest,
      (descent_leaf hp).symm⟩

/-- A value that fits a storage type has items, and they are what the descent through the type and
the value meets: the same type nodes with the same values in the same order. -/
theorem namedItems_of_fits (h : Fits type value) :
    ∃ items, namedItems type value = .ok items ∧ items.map Item.place = descent type value := by
  obtain ⟨items, hitems, hplaces⟩ := alignWhole_of_align (align_of_fits h) .own
  refine ⟨nameItems items, ?_, ?_⟩
  · rw [namedItems, alignValue_eq, hitems]
    rfl
  · rw [map_place_nameItems, hplaces]

/-- An optional pair beside a big map: the leaves of the inner pair and the number of the map, each
at its own type. -/
theorem namedItems_of_fits_option :
    let maps := type2 .bigMap (type0 .address) (type0 .nat)
    let type := type2 .pair (type1 .option (type2 .pair (type0 .nat) (type0 .string))) maps
    let value := data2 .pair (data1 .some (data2 .pair (int 1) (string "a"))) (int 7)
    ∃ items, namedItems type value = .ok items ∧ items.map Item.place =
      [(.type .nat, type0 .nat, int 1), (.type .string, type0 .string, string "a"),
        (.type .bigMap, maps, int 7)] := by
  intro maps type value
  have hfits : Fits type value :=
    .pair rfl (.some (.pair rfl (.leaf rfl rfl) (.leaf rfl rfl))) (.bigMap 7)
  exact namedItems_of_fits hfits

end Michelson.Storage
