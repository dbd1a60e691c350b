/-
# The layout of pairs does not matter

A pair of more than two parts can be written flat or as a comb.  Aligning splices pairs on both
sides, so writing all pairs of a type and of a value as combs gives the same items: the same names
and primitives in the same order, with the values written as combs.  Faults show trees, so only that
there is a fault is kept, and the two runs are compared by `Except.Mirrors`.

The main statement is `namedItems_nestPairs`.  It follows the type: a comb of types is aligned like
the list of its parts (`align_comb`), and a slot takes a nested value just when it takes the value
itself (`Takes.nestPairs`, `exists_takes_of_nestPairs`).
-/
import Michelson.Proofs.Storage.Align

namespace Michelson

open Michelson.Expr

/-- The same value with all pairs written as combs. -/
def Aligned.nestPairs (i : Aligned) : Aligned :=
  ⟨i.wanted, i.prim, i.type.nestPairs, i.value.nestPairs⟩

/-- The same item with all pairs written as combs. -/
def Storage.Item.nestPairs (i : Storage.Item) : Storage.Item :=
  ⟨i.name, i.prim, i.type.nestPairs, i.value.nestPairs⟩

namespace NameSource

@[simp] lemma nameFor_nestPairs (source : NameSource) (type : Expr) :
    source.nameFor type.nestPairs = source.nameFor type := by
  cases source <;> simp [nameFor]

@[simp] lemma within_nestPairs (source : NameSource) (type : Expr) :
    source.within type.nestPairs = source.within type := by
  cases source <;> simp [within]

end NameSource

namespace Storage

open Except (Mirrors)

lemma nameOfKey?_nestPairs (key : Expr) : nameOfKey? key.nestPairs = nameOfKey? key := by
  cases key with
  | literal l u => rfl
  | seq items u =>
    rw [nestPairs_seq]
    rfl
  | app p args annots w u =>
    obtain ⟨args', w', h⟩ := exists_nestPairs_app p args annots w u
    rw [h]
    rfl

lemma entryName_nestPairs (type : Expr) (position : Nat) (key : Expr) :
    entryName type.nestPairs position key.nestPairs = entryName type position key := by
  rw [entryName, entryName, nameOfKey?_nestPairs, label?_nestPairs]

variable {source : NameSource} {used : Nat} {queue : List Expr} {p : Primitive}
  {args : List Expr} {annots : List String} {w u : Bool}

/-! ### Combs of types -/

lemma alignAll_singleton (type : Expr) :
    alignAll source used queue [type] = align source used queue type := by
  rw [alignAll]
  cases align source used queue type with
  | ok result =>
    rw [Except.ok_bind]
    simp only [alignAll, Except.ok_bind, List.append_nil]
    rfl
  | error fault => rfl

/-- A comb of types takes what its parts take one after the other. -/
lemma align_comb {types : List Expr} (hne : types ≠ []) :
    align source used queue (comb (.type .pair) types) = alignAll source used queue types := by
  induction types generalizing used queue with
  | nil => exact absurd rfl hne
  | cons type types ih =>
    cases types with
    | nil => rw [comb, alignAll_singleton]
    | cons type' types =>
      have hrest : type' :: types ≠ [] := List.cons_ne_nil type' types
      rw [comb_cons _ _ hrest, align_pair, alignAll, alignAll]
      simp only [alignAll_singleton, ih hrest]

lemma align_nestPairs_pair :
    align source used queue (app (.type .pair) args annots w u).nestPairs =
      alignAll source used queue (args.map nestPairs) := by
  match args with
  | [] | [_] | [_, _] => rw [nestPairs_app_of_length_le (by simp), align_pair]
  | e :: e' :: e'' :: rest =>
    have hne : (e' :: e'' :: rest).map nestPairs ≠ [] := by simp
    rw [List.map_cons, nestPairs_pair_cons rfl, align_pair, alignAll, alignAll]
    simp only [alignAll_singleton, align_comb hne]

/-! ### Two runs -/

/-- Aligning the nested type with nested values follows aligning the type. -/
def AlignsNested (type : Expr) : Prop :=
  ∀ source used queue, Mirrors (Prod.map (List.map Aligned.nestPairs) (List.map Expr.nestPairs))
    (align source used (queue.map Expr.nestPairs) type.nestPairs) (align source used queue type)

lemma mirrors_append {here others here' others' : Shaped (List Aligned)}
    (h : Mirrors (List.map Aligned.nestPairs) here' here)
    (h' : Mirrors (List.map Aligned.nestPairs) others' others) :
    Mirrors (List.map Aligned.nestPairs)
      (do let a ← here'; let b ← others'; return a ++ b)
      (do let a ← here; let b ← others; return a ++ b) := by
  refine h.bind fun a => h'.bind fun b => ?_
  rw [← List.map_append]
  exact .ok (a ++ b)

lemma mirrors_alignElements {align align' : Expr → Shaped (List Aligned)}
    (h : ∀ x, Mirrors (List.map Aligned.nestPairs) (align' x.nestPairs) (align x))
    (elements : List Expr) :
    Mirrors (List.map Aligned.nestPairs) (alignElements align' (elements.map Expr.nestPairs))
      (alignElements align elements) := by
  induction elements with
  | nil => exact .ok []
  | cons x rest ih => exact mirrors_append (h x) ih

lemma mirrors_alignAll {types : List Expr} (h : ∀ type ∈ types, AlignsNested type) :
    Mirrors (Prod.map (List.map Aligned.nestPairs) (List.map Expr.nestPairs))
      (alignAll source used (queue.map Expr.nestPairs) (types.map Expr.nestPairs))
      (alignAll source used queue types) := by
  induction types generalizing used queue with
  | nil => exact .ok ([], queue)
  | cons type types ih =>
    rw [List.map_cons, alignAll, alignAll]
    refine (h type List.mem_cons_self source used queue).bind (Prod.forall.2 fun items rest => ?_)
    -- nesting does not change how many values are left, so the counts agree as well
    simp only [Prod.map_apply, List.length_map]
    refine (ih fun a ha => h a (List.mem_cons_of_mem type ha)).bind
      (Prod.forall.2 fun others rest' => ?_)
    simp only [Prod.map_apply, ← List.map_append]
    exact .ok (items ++ others, rest')

lemma AlignsNested.whole {type : Expr} (h : AlignsNested type) (source : NameSource) (x : Expr) :
    Mirrors (List.map Aligned.nestPairs) (alignWhole source type.nestPairs x.nestPairs)
      (alignWhole source type x) := by
  rw [alignWhole, alignWhole, pairLeaves_nestPairs]
  refine (h source 0 x.pairLeaves).bind (Prod.forall.2 fun items rest => ?_)
  cases rest with
  | nil => exact .ok items
  | cons e rest => exact .error _ _

/-- The same for what hangs below a node, which has its names from there. -/
lemma AlignsNested.within {a : Expr} (h : AlignsNested a) (source : NameSource) (type x : Expr) :
    Mirrors (List.map Aligned.nestPairs)
      (alignWhole (source.within type.nestPairs) a.nestPairs x.nestPairs)
      (alignWhole (source.within type) a x) := by
  rw [NameSource.within_nestPairs]
  exact h.whole (source.within type) x

lemma AlignsNested.elements {a : Expr} (h : AlignsNested a) (source : NameSource) (type : Expr)
    (elements : List Expr) :
    Mirrors (List.map Aligned.nestPairs)
      (alignElements (alignWhole (source.within type.nestPairs) a.nestPairs)
        (elements.map Expr.nestPairs))
      (alignElements (alignWhole (source.within type) a) elements) :=
  mirrors_alignElements (h.within source type) elements

lemma isEntry_nestPairs_iff (e : Expr) : IsEntry e.nestPairs ↔ IsEntry e := by
  constructor
  · rintro ⟨key, x, annots, w, u, h⟩
    obtain ⟨args, rfl, hargs⟩ := eq_app_of_nestPairs rfl h
    match args, hargs with
    | [key, x], _ => exact ⟨key, x, annots, w, u, rfl⟩
  · rintro ⟨key, x, annots, w, u, rfl⟩
    exact ⟨key.nestPairs, x.nestPairs, annots, w, u, nestPairs_app_of_not_isPair rfl⟩

lemma AlignsNested.entries {b : Expr} (h : AlignsNested b) (type : Expr) (position : Nat)
    (entries : List Expr) :
    Mirrors (List.map Aligned.nestPairs)
      (alignEntries type.nestPairs (fun source v => alignWhole source b.nestPairs v) position
        (entries.map Expr.nestPairs))
      (alignEntries type (fun source v => alignWhole source b v) position entries) := by
  induction entries generalizing position with
  | nil => exact .ok []
  | cons e rest ih =>
    by_cases hentry : IsEntry e
    · obtain ⟨key, x, annots, w, u, rfl⟩ := hentry
      rw [List.map_cons, nestPairs_app_of_not_isPair rfl, List.map_cons, List.map_singleton,
        alignEntries, alignEntries, entryName_nestPairs]
      exact mirrors_append (h.whole _ x) (ih (position + 1))
    · rw [List.map_cons, alignEntries_of_not_isEntry hentry,
        alignEntries_of_not_isEntry (mt (isEntry_nestPairs_iff e).1 hentry)]
      exact .error _ _

/-! ### One slot -/

lemma nestPairs_record (source : NameSource) (p : Primitive) (type value : Expr) :
    Aligned.nestPairs ⟨source.nameFor type, p, type, value⟩ =
      ⟨source.nameFor type.nestPairs, p, type.nestPairs, value.nestPairs⟩ := by
  rw [Aligned.nestPairs, NameSource.nameFor_nestPairs]

/-- A value that a slot takes is taken by the nested slot when it is nested, for the nested
items. -/
lemma Takes.nestPairs (hargs : ∀ a ∈ args, AlignsNested a) {value : Expr} {items : List Aligned}
    (h : Takes source (app p args annots w u) value items) :
    Takes source (app p args annots w u).nestPairs value.nestPairs
      (items.map Aligned.nestPairs) := by
  cases h with
  | bigMap n =>
    rw [List.map_singleton, nestPairs_record, nestPairs_app_of_not_isPair rfl]
    exact .bigMap n
  | none =>
    rw [List.map_singleton, nestPairs_record, nestPairs_app_of_not_isPair rfl,
      nestPairs_app_of_not_isPair rfl]
    exact .none
  | some h =>
    have hwhole := ((hargs _ List.mem_cons_self).within source _ _).eq_ok h
    rw [nestPairs_app_of_not_isPair rfl] at hwhole
    rw [nestPairs_app_of_not_isPair rfl, nestPairs_app_of_not_isPair rfl]
    exact .some hwhole
  | left h =>
    have hwhole := ((hargs _ List.mem_cons_self).within source _ _).eq_ok h
    rw [nestPairs_app_of_not_isPair rfl] at hwhole
    rw [nestPairs_app_of_not_isPair rfl, nestPairs_app_of_not_isPair rfl]
    exact .left hwhole
  | right h =>
    have hwhole := ((hargs _ (by simp)).within source _ _).eq_ok h
    rw [nestPairs_app_of_not_isPair rfl] at hwhole
    rw [nestPairs_app_of_not_isPair rfl, nestPairs_app_of_not_isPair rfl]
    exact .right hwhole
  | list h =>
    have hall := ((hargs _ List.mem_cons_self).elements source _ _).eq_ok h
    rw [nestPairs_app_of_not_isPair rfl] at hall
    rw [nestPairs_app_of_not_isPair rfl, nestPairs_seq]
    exact .list hall
  | map h =>
    have hall := ((hargs _ (by simp)).entries _ 0 _).eq_ok h
    rw [nestPairs_app_of_not_isPair rfl] at hall
    rw [nestPairs_app_of_not_isPair rfl, nestPairs_seq]
    exact .map hall
  | leaf hp =>
    obtain ⟨args', w', hnode⟩ := exists_nestPairs_app p args annots w u
    rw [List.map_singleton, nestPairs_record, hnode]
    exact .leaf hp

/-- A slot that takes a nested value when it is nested takes the value itself. -/
lemma exists_takes_of_nestPairs (hargs : ∀ a ∈ args, AlignsNested a) {value : Expr}
    {items' : List Aligned}
    (h : Takes source (app p args annots w u).nestPairs value.nestPairs items') :
    ∃ items, Takes source (app p args annots w u) value items := by
  -- the cases are those of the nested trees; what they come from is then read off the two equations
  generalize hslot : (app p args annots w u).nestPairs = slot' at h
  generalize hvalue : value.nestPairs = value' at h
  cases h with
  | bigMap n =>
    obtain ⟨args, heq, rfl⟩ := eq_app_of_nestPairs rfl hslot
    cases heq
    cases eq_literal_of_nestPairs hvalue
    exact ⟨_, .bigMap n⟩
  | none =>
    obtain ⟨args, heq, rfl⟩ := eq_app_of_nestPairs rfl hslot
    cases heq
    obtain ⟨args', rfl, -⟩ := eq_app_of_nestPairs rfl hvalue
    exact ⟨_, .none⟩
  | some h =>
    obtain ⟨a, more, heq, rfl, rfl⟩ := eq_app_cons_of_nestPairs rfl hslot
    cases heq
    obtain ⟨x, more', rfl, rfl, -⟩ := eq_app_cons_of_nestPairs rfl hvalue
    rw [← hslot] at h
    obtain ⟨items, hitems⟩ := ((hargs a List.mem_cons_self).within source _ x).exists_of_ok h
    exact ⟨items, .some hitems⟩
  | left h =>
    obtain ⟨a, more, heq, rfl, rfl⟩ := eq_app_cons_of_nestPairs rfl hslot
    cases heq
    obtain ⟨x, more', rfl, rfl, -⟩ := eq_app_cons_of_nestPairs rfl hvalue
    rw [← hslot] at h
    obtain ⟨items, hitems⟩ := ((hargs a List.mem_cons_self).within source _ x).exists_of_ok h
    exact ⟨items, .left hitems⟩
  | right h =>
    obtain ⟨a, more, heq, rfl, hmore⟩ := eq_app_cons_of_nestPairs rfl hslot
    cases heq
    obtain ⟨b, more, rfl, rfl, rfl⟩ := List.map_eq_cons_iff.1 hmore
    obtain ⟨x, more', rfl, rfl, -⟩ := eq_app_cons_of_nestPairs rfl hvalue
    rw [← hslot] at h
    obtain ⟨items, hitems⟩ := ((hargs b (by simp)).within source _ x).exists_of_ok h
    exact ⟨items, .right hitems⟩
  | list h =>
    obtain ⟨a, more, heq, rfl, rfl⟩ := eq_app_cons_of_nestPairs rfl hslot
    cases heq
    obtain ⟨elements, rfl, rfl⟩ := eq_seq_of_nestPairs hvalue
    rw [← hslot] at h
    obtain ⟨items, hitems⟩ :=
      ((hargs a List.mem_cons_self).elements source _ elements).exists_of_ok h
    exact ⟨items, .list hitems⟩
  | map h =>
    obtain ⟨a, more, heq, rfl, hmore⟩ := eq_app_cons_of_nestPairs rfl hslot
    cases heq
    obtain ⟨b, more, rfl, rfl, rfl⟩ := List.map_eq_cons_iff.1 hmore
    obtain ⟨entries, rfl, rfl⟩ := eq_seq_of_nestPairs hvalue
    rw [← hslot] at h
    obtain ⟨items, hitems⟩ := ((hargs b (by simp)).entries _ 0 entries).exists_of_ok h
    exact ⟨items, .map hitems⟩
  | leaf hp =>
    obtain ⟨args', w', hnode⟩ := exists_nestPairs_app p args annots w u
    rw [hnode, app.injEq] at hslot
    rw [← hslot.1] at hp
    exact ⟨_, .leaf hp⟩

/-- For a slot it is enough to look at the value in front. -/
lemma alignsNested_of_slot (hslot : isSlot p) (hargs : ∀ a ∈ args, AlignsNested a) :
    AlignsNested (app p args annots w u) := by
  intro source used queue
  obtain ⟨args', w', hnode⟩ := exists_nestPairs_app p args annots w u
  refine Mirrors.of_imp (fun (items, rest) h => ?_) fun (items', rest') h => ?_
  · obtain ⟨value, rfl, htakes⟩ := (align_slot_eq_ok_iff hslot).1 h
    have htakes' := htakes.nestPairs hargs
    rw [hnode] at htakes' ⊢
    exact (align_slot_eq_ok_iff hslot).2 ⟨value.nestPairs, rfl, htakes'⟩
  · rw [hnode] at h
    obtain ⟨value', hqueue, htakes'⟩ := (align_slot_eq_ok_iff hslot).1 h
    obtain ⟨value, rest, rfl, rfl, -⟩ := List.map_eq_cons_iff.1 hqueue
    rw [← hnode] at htakes'
    obtain ⟨items, htakes⟩ := exists_takes_of_nestPairs hargs htakes'
    exact ⟨(items, rest), (align_slot_eq_ok_iff hslot).2 ⟨value, rfl, htakes⟩⟩

/-! ### Types -/

/-- By induction on the type: what hangs below a slot is aligned with a queue of its own, so every
queue has to be covered at once. -/
theorem alignsNested (type : Expr) : AlignsNested type := by
  induction type using Expr.induct with
  | literal l u => exact fun source used queue => .error _ _
  | seq elements u =>
    intro source used queue
    rw [nestPairs_seq]
    exact .error _ _
  | app p args annots w u ih =>
    intro source used queue
    rcases spliced_or_isSlot p with rfl | rfl | hslot
    · rw [nestPairs_app_of_not_isPair rfl]
      cases args with
      | nil => exact .error _ _
      | cons a more =>
        rw [List.map_cons, align_storage, align_storage]
        exact ih a List.mem_cons_self source used queue
    · rw [align_nestPairs_pair, align_pair]
      exact mirrors_alignAll ih
    · exact alignsNested_of_slot hslot ih source used queue

/-! ### Named items -/

lemma nameItems_nestPairs (items : List Aligned) :
    nameItems (items.map Aligned.nestPairs) = (nameItems items).map Item.nestPairs := by
  rw [nameItems, nameItems, Names.assign_map, List.zip_map_left, List.map_map, List.map_map]
  rfl

/-- A storage value with all pairs written as combs has items for the type with all pairs written as
combs exactly when the value itself has items for the type.  They have the same names and the same
primitives in the same order, and their values are those of the others written as combs. -/
theorem namedItems_nestPairs (type value : Expr) :
    ((∃ named, namedItems type.nestPairs value.nestPairs = .ok named) ↔
        ∃ named, namedItems type value = .ok named) ∧
      ∀ named nested, namedItems type value = .ok named →
        namedItems type.nestPairs value.nestPairs = .ok nested →
          nested.map Item.name = named.map Item.name ∧
            nested.map Item.prim = named.map Item.prim ∧
              nested.map Item.value = named.map fun i => i.value.nestPairs := by
  have hmirrors : Mirrors (List.map Item.nestPairs) (namedItems type.nestPairs value.nestPairs)
      (namedItems type value) := by
    rw [namedItems, namedItems, alignValue_eq, alignValue_eq]
    refine ((alignsNested type).whole .own value).bind fun items => ?_
    rw [nameItems_nestPairs]
    exact .ok (nameItems items)
  refine ⟨⟨?_, ?_⟩, fun named nested h h' => ?_⟩
  · rintro ⟨nested, h⟩
    exact hmirrors.exists_of_ok h
  · rintro ⟨named, h⟩
    exact ⟨_, hmirrors.eq_ok h⟩
  · rw [hmirrors.eq_ok h, Except.ok.injEq] at h'
    subst h'
    simp only [List.map_map]
    exact ⟨rfl, rfl, rfl⟩

/-- A flat pair in an option beside a map of flat pairs, whose one value is written as a comb
already: the nested type gives the nested value the same items. -/
theorem namedItems_nestPairs_mixed :
    let point := apply (.type .pair) [type0 .nat, type0 .string, type1 .option (type0 .nat)]
    let type := type2 .pair (type1 .option point) (type2 .map (type0 .string) point)
    let value := data2 .pair (data1 .some (apply (.data .pair) [int 1, string "a", data0 .none]))
      (list [data2 .elt (string "k") (data2 .pair (int 2) (data2 .pair (string "b") (data0 .none)))])
    ∃ nested, namedItems type.nestPairs value.nestPairs = .ok nested ∧
      nested.map Item.name = ["nat_0", "string_0", "option_0", "k", "k_0", "k_1"] ∧
        nested.map Item.prim = [.type .nat, .type .string, .type .option, .type .nat,
          .type .string, .type .option] := by
  intro point type value
  let item (name : String) (type value : Expr) (t : TypeConstructor) : Item :=
    ⟨name, .type t, type, value⟩
  have h : namedItems type value =
      .ok [item "nat_0" (type0 .nat) (int 1) .nat, item "string_0" (type0 .string) (string "a") .string,
        item "option_0" (type1 .option (type0 .nat)) (data0 .none) .option,
        item "k" (type0 .nat) (int 2) .nat, item "k_0" (type0 .string) (string "b") .string,
        item "k_1" (type1 .option (type0 .nat)) (data0 .none) .option] := by cbv
  obtain ⟨hok, hitems⟩ := namedItems_nestPairs type value
  obtain ⟨nested, h'⟩ := hok.2 ⟨_, h⟩
  obtain ⟨hnames, hprims, -⟩ := hitems _ nested h h'
  exact ⟨nested, h', hnames, hprims⟩

end Storage

end Michelson
