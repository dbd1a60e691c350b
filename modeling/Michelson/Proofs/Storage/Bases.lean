/-
# Where the names of items come from

Aligning hands a wish for a name down the type and changes it on the way.  What comes out can be
told without aligning, from what is *around* a value (`locate`): the options, choices and lists that
it is a part of, and the entries of maps.  The nearest entry decides, whatever stands between it and
the value; where there is none, the nearest label does, that of the type node itself before those
around it (`base?`).  Pairs are not among what is around a value, so their labels have no say.

A wish is handed down for all that is around a value (`sourceOf`), so by induction on the type what
is aligned are the located values with their bases for wishes (`locates`).  Naming then takes one
after the other, and the main statement is `name_of_namedItems`.
-/
import Michelson.Proofs.Storage.BigMaps
import Michelson.Proofs.Storage.Slots
import Michelson.Proofs.TextForm

namespace Michelson.Storage

open Michelson.Expr

/-! ### What is around a value -/

/-- What a value is inside of. -/
inductive Surrounding where
  /-- An option, a choice or a list of this type. -/
  | node (type : Expr)
  /-- An entry of a map of this type, with its position and its key. -/
  | entry (mapType : Expr) (position : Nat) (key : Expr)

/-- A value with its type node and with what is around it, the nearest first. -/
structure Located where
  /-- What is around the value. -/
  around : List Surrounding
  /-- The primitive of the type node. -/
  prim : Primitive
  /-- The type node. -/
  type : Expr
  /-- The value. -/
  value : Expr

/-- What an item says about it apart from its name. -/
def Located.place (l : Located) : Place := (l.prim, l.type, l.value)

/-- What is found in the entries of a map, when `places` finds it in an entry at a position with a
key and a value. -/
def entryPlaces (places : Nat → Expr → Expr → List Located) : Expr × Nat → List Located
  | (.app (.data .elt) [key, value] _ _ _, position) => places position key value
  | _ => []

mutual

/-- The values that the slots of a type line up with in a queue, or what is inside them: a value in
an option, on a side of a choice, in a list or in an entry of a map is looked for inside of it. -/
def locate : (type : Expr) → List Surrounding → (queue : List Expr) → List Located
  | .app p args annots w u, around, queue =>
    let type := Expr.app p args annots w u
    match p, args with
    | .keyword .storage, inner :: _ => locate inner around queue
    | .type .pair, args => locateAll args around queue
    | p, args =>
      match queue with
      | [] => []
      | value :: _ =>
        match p, args, value with
        | .type .option, a :: _, .app (.data .some) (x :: _) _ _ _ =>
          locate a (.node type :: around) x.pairLeaves
        | .type .or, a :: _, .app (.data .left) (x :: _) _ _ _ =>
          locate a (.node type :: around) x.pairLeaves
        | .type .or, _ :: b :: _, .app (.data .right) (x :: _) _ _ _ =>
          locate b (.node type :: around) x.pairLeaves
        | .type .list, a :: _, .seq elements _ =>
          elements.flatMap fun x => locate a (.node type :: around) x.pairLeaves
        | .type .map, _ :: b :: _, .seq entries _ =>
          entries.zipIdx.flatMap <| entryPlaces fun position key x =>
            locate b (.entry type position key :: around) x.pairLeaves
        | p, _, value => [⟨around, p, type, value⟩]
  | _, _, _ => []

/-- What some types line up with in a queue, one after the other. -/
def locateAll : (types : List Expr) → List Surrounding → (queue : List Expr) → List Located
  | [], _, _ => []
  | type :: types, around, queue =>
    locate type around queue ++ locateAll types around (queue.drop (slots type).length)

end

/-- The values that the items of a storage value are made of. -/
def located (type value : Expr) : List Located := locate type [] value.pairLeaves

/-! ### Bases -/

namespace Surrounding

/-- The name that an entry of a map gives to what is inside. -/
def entryName? : Surrounding → Option String
  | node _ => none
  | entry mapType position key => some (entryName mapType position key)

/-- The label of an option, a choice or a list. -/
def label? : Surrounding → Option String
  | node type => type.label?
  | entry _ _ _ => none

end Surrounding

/-- The base of the name of a value: the name of the nearest entry of a map around it; or else the
label of its type node, or else the nearest label around it. -/
def base? (around : List Surrounding) (type : Expr) : Option String :=
  around.findSome? Surrounding.entryName? <|>
    type.label? <|> around.findSome? Surrounding.label?

/-- The names that keys give by themselves. -/
inductive Says : Expr → String → Prop
  /-- A text that is not empty. -/
  | text {s : String} {u : Bool} (h : s ≠ "") : Says (literal (.string s) u) s
  /-- Bytes that are printable text. -/
  | ascii {b : Bytes} {u : Bool} (h : b.isAscii) : Says (literal (.bytes b) u) (Utf8.ofAscii b)
  /-- The bytes of an address. -/
  | address {b : Bytes} {u : Bool} {a : Address} (hascii : ¬ b.isAscii)
    (h : Address.ofBytes b = .ok a) : Says (literal (.bytes b) u) a.toText

lemma nameOfKey?_eq_some_iff {key : Expr} {name : String} :
    nameOfKey? key = some name ↔ Says key name := by
  constructor
  · intro h
    unfold nameOfKey? at h
    split at h
    · split at h
      · cases h
      · next hne =>
        cases h
        exact .text hne
    · split at h
      · next hascii =>
        cases h
        exact .ascii hascii
      · next hascii =>
        split at h
        · next ha =>
          cases h
          exact .address hascii ha
        · cases h
    · cases h
  · intro h
    cases h with
    | text h => exact if_neg h
    | ascii h => exact if_pos h
    | address hascii h =>
      rw [nameOfKey?, if_neg hascii]
      simp only [h]

/-- A key that says nothing leaves the name to the map and the position. -/
lemma entryName_spec (mapType : Expr) (position : Nat) (key : Expr) :
    (∀ name, Says key name → entryName mapType position key = name) ∧
      ((∀ name, ¬ Says key name) →
        entryName mapType position key =
          mapType.label?.getD "map" ++ "_" ++ toString position) := by
  constructor
  · intro name h
    rw [entryName, nameOfKey?_eq_some_iff.2 h, Option.getD_some]
  · intro h
    have hnone : nameOfKey? key = none := by
      cases hname : nameOfKey? key with
      | none => rfl
      | some name => exact absurd (nameOfKey?_eq_some_iff.1 hname) (h name)
    rw [entryName, hnone]
    rfl

/-! ### Bases are not empty -/

lemma ofAscii_ne_empty {b : Bytes} (h : b.isAscii) : Utf8.ofAscii b ≠ "" := by
  cases b with
  | nil => cases h
  | cons c b => simp [Utf8.ofAscii]

lemma Says.ne_empty {key : Expr} {name : String} (h : Says key name) : name ≠ "" := by
  cases h with
  | text h => exact h
  | ascii h => exact ofAscii_ne_empty h
  | @address _ _ a _ _ => exact a.toText_ne_empty

lemma entryName_ne_empty (mapType : Expr) (position : Nat) (key : Expr) :
    entryName mapType position key ≠ "" := by
  rw [entryName]
  cases hname : nameOfKey? key with
  | none => exact Names.numbered_ne_empty _ _
  | some name => exact (nameOfKey?_eq_some_iff.1 hname).ne_empty

lemma label?_ne_empty {type : Expr} {name : String} (h : type.label? = some name) : name ≠ "" := by
  have hmarked {mark : Char} (h : type.nameMarked? mark = some name) : name ≠ "" := by
    simpa using (Option.filter_eq_some_iff.1 h).2
  simp only [label?, Option.orElse_eq_orElse, Option.orElse_eq_or, Option.or_eq_some_iff] at h
  rcases h with h | ⟨-, h | ⟨-, h⟩⟩
  · exact hmarked h
  · exact hmarked h
  · exact hmarked h

lemma Surrounding.label?_ne_empty {s : Surrounding} {name : String} (h : s.label? = some name) :
    name ≠ "" := by
  cases s with
  | node type => exact Storage.label?_ne_empty h
  | entry mapType position key => cases h

lemma base?_ne_empty {around : List Surrounding} {type : Expr} {name : String}
    (h : base? around type = some name) : name ≠ "" := by
  simp only [base?, Option.orElse_eq_orElse, Option.orElse_eq_or, Option.or_eq_some_iff] at h
  rcases h with h | ⟨-, h | ⟨-, h⟩⟩
  · obtain ⟨s, -, hs⟩ := List.exists_of_findSome?_eq_some h
    cases s with
    | node type => cases hs
    | entry mapType position key =>
      cases hs
      exact entryName_ne_empty mapType position key
  · exact label?_ne_empty h
  · obtain ⟨s, -, hs⟩ := List.exists_of_findSome?_eq_some h
    exact Surrounding.label?_ne_empty hs

/-! ### The wish that is handed down -/

/-- Where names come from inside of all that is around. -/
def sourceOf (around : List Surrounding) : NameSource :=
  match around.findSome? Surrounding.entryName?, around.findSome? Surrounding.label? with
  | some name, _ => .forced name
  | none, some name => .inherited name
  | none, none => .own

section

variable {around : List Surrounding} {type : Expr}

lemma nameFor_sourceOf : (sourceOf around).nameFor type = base? around type := by
  rw [sourceOf, base?]
  cases around.findSome? Surrounding.entryName? with
  | some name => rfl
  | none =>
    cases around.findSome? Surrounding.label? with
    | some name => rfl
    | none => cases h : type.label? <;> simp [NameSource.nameFor, h]

lemma within_sourceOf : (sourceOf around).within type = sourceOf (.node type :: around) := by
  simp only [sourceOf, List.findSome?_cons, Surrounding.entryName?, Surrounding.label?]
  cases around.findSome? Surrounding.entryName? with
  | some name => rfl
  | none =>
    cases around.findSome? Surrounding.label? with
    | some name => cases h : type.label? <;> simp [NameSource.within, NameSource.nameFor, h]
    | none => cases h : type.label? <;> simp [NameSource.within, NameSource.nameFor, h]

lemma sourceOf_entry (around : List Surrounding) (mapType : Expr) (position : Nat) (key : Expr) :
    sourceOf (.entry mapType position key :: around) =
      .forced (entryName mapType position key) := by
  rw [sourceOf, List.findSome?_cons, Surrounding.entryName?]

end

/-! ### What is located for each form of value -/

section

variable {around : List Surrounding} {rest : List Expr} {value : Expr}
  {p : Primitive} {args more : List Expr} {annots : List String} {w u : Bool}
  {a b x : Expr} {args' more' elements : List Expr} {annots' : List String} {w' u' : Bool}

lemma locate_storage {queue : List Expr} :
    locate (app (.keyword .storage) (a :: more) annots w u) around queue =
      locate a around queue := rfl

lemma locate_pair {queue : List Expr} :
    locate (app (.type .pair) args annots w u) around queue = locateAll args around queue := rfl

lemma locate_bigMap :
    locate (app (.type .bigMap) args annots w u) around (value :: rest) =
      [⟨around, .type .bigMap, app (.type .bigMap) args annots w u, value⟩] := rfl

lemma locate_none :
    locate (app (.type .option) args annots w u) around
        (app (.data .none) args' annots' w' u' :: rest) =
      [⟨around, .type .option, app (.type .option) args annots w u,
        app (.data .none) args' annots' w' u'⟩] := by
  cases args <;> rfl

lemma locate_some :
    locate (app (.type .option) (a :: more) annots w u) around
        (app (.data .some) (x :: more') annots' w' u' :: rest) =
      locate a (.node (app (.type .option) (a :: more) annots w u) :: around) x.pairLeaves := rfl

lemma locate_left :
    locate (app (.type .or) (a :: more) annots w u) around
        (app (.data .left) (x :: more') annots' w' u' :: rest) =
      locate a (.node (app (.type .or) (a :: more) annots w u) :: around) x.pairLeaves := rfl

lemma locate_right :
    locate (app (.type .or) (a :: b :: more) annots w u) around
        (app (.data .right) (x :: more') annots' w' u' :: rest) =
      locate b (.node (app (.type .or) (a :: b :: more) annots w u) :: around) x.pairLeaves := rfl

lemma locate_list :
    locate (app (.type .list) (a :: more) annots w u) around (seq elements u' :: rest) =
      elements.flatMap fun x =>
        locate a (.node (app (.type .list) (a :: more) annots w u) :: around) x.pairLeaves := rfl

lemma locate_map :
    locate (app (.type .map) (a :: b :: more) annots w u) around (seq elements u' :: rest) =
      elements.zipIdx.flatMap (entryPlaces fun position key x =>
        locate b (.entry (app (.type .map) (a :: b :: more) annots w u) position key :: around)
          x.pairLeaves) := rfl

lemma locate_leaf (h : isStructural p = false) :
    locate (app p args annots w u) around (value :: rest) =
      [⟨around, p, app p args annots w u, value⟩] := by
  rw [locate]
  -- every primitive with a rule is structural
  all_goals
    intros
    subst_vars
    exact absurd h (by decide)

end

/-! ### What is aligned is what is located -/

/-- A located value as it is aligned: it wishes for its base. -/
def Located.aligned (l : Located) : Aligned := ⟨base? l.around l.type, l.prim, l.type, l.value⟩

/-- Aligning the type takes off every queue one value for each slot and records what is located
in the queue. -/
def Locates (type : Expr) : Prop :=
  ∀ around used queue items rest, align (sourceOf around) used queue type = .ok (items, rest) →
    rest = queue.drop (slots type).length ∧ items = (locate type around queue).map Located.aligned

section

variable {around : List Surrounding} {used : Nat} {type value : Expr} {queue rest : List Expr}
  {p : Primitive} {args : List Expr} {annots : List String} {w u : Bool} {items : List Aligned}

lemma Locates.whole (h : Locates type) (around : List Surrounding) (x : Expr)
    (items : List Aligned) (hx : alignWhole (sourceOf around) type x = .ok items) :
    items = (locate type around x.pairLeaves).map Located.aligned :=
  (h around 0 _ items [] (alignWhole_eq_ok_iff.1 hx)).2

lemma eq_of_alignElements {align : Expr → Shaped (List Aligned)} {places : Expr → List Located}
    (halign : ∀ x items, align x = .ok items → items = (places x).map Located.aligned)
    {elements : List Expr} (h : alignElements align elements = .ok items) :
    items = (elements.flatMap places).map Located.aligned := by
  induction elements generalizing items with
  | nil =>
    cases h
    rfl
  | cons x rest ih =>
    obtain ⟨here, others, hhere, hothers, rfl⟩ := alignElements_cons_eq_ok_iff.1 h
    rw [List.flatMap_cons, List.map_append, ← halign x here hhere, ← ih hothers]

lemma eq_of_alignEntries {align : NameSource → Expr → Shaped (List Aligned)}
    {places : Nat → Expr → Expr → List Located}
    (halign : ∀ position key x items,
      align (.forced (entryName type position key)) x = .ok items →
        items = (places position key x).map Located.aligned) {position : Nat}
    {entries : List Expr} (h : alignEntries type align position entries = .ok items) :
    items = ((entries.zipIdx position).flatMap (entryPlaces places)).map Located.aligned := by
  induction entries generalizing position items with
  | nil =>
    cases h
    rfl
  | cons e rest ih =>
    obtain ⟨key, x, annots, w, u, rfl, here, others, hhere, hothers, rfl⟩ :=
      alignEntries_cons_eq_ok_iff.1 h
    rw [List.zipIdx_cons, List.flatMap_cons, List.map_append, ← ih hothers, entryPlaces,
      ← halign _ _ _ here hhere]

lemma eq_of_alignAll {types : List Expr} (htypes : ∀ type ∈ types, Locates type)
    (h : alignAll (sourceOf around) used queue types = .ok (items, rest)) :
    rest = queue.drop (slotsAll types).length ∧
      items = (locateAll types around queue).map Located.aligned := by
  induction types generalizing used queue items with
  | nil =>
    cases h
    exact ⟨rfl, rfl⟩
  | cons type types ih =>
    obtain ⟨here, mid, hhere, others, rest', hothers, heq⟩ := alignAll_cons_eq_ok_iff.1 h
    cases heq
    obtain ⟨rfl, rfl⟩ := htypes type List.mem_cons_self _ _ _ _ _ hhere
    obtain ⟨rfl, rfl⟩ := ih (fun a ha => htypes a (List.mem_cons_of_mem type ha)) hothers
    refine ⟨?_, ?_⟩
    · rw [slotsAll, List.length_append, List.drop_drop]
    · rw [locateAll, List.map_append]

/-- What a slot records, when its arguments record what is located. -/
lemma eq_of_takes (hargs : ∀ a ∈ args, Locates a)
    (h : Takes (sourceOf around) (app p args annots w u) value items) :
    items = (locate (app p args annots w u) around (value :: rest)).map Located.aligned := by
  cases h with
  | bigMap n =>
    rw [nameFor_sourceOf, locate_bigMap]
    rfl
  | none =>
    rw [nameFor_sourceOf, locate_none]
    rfl
  | some h =>
    rw [within_sourceOf] at h
    rw [locate_some]
    exact (hargs _ List.mem_cons_self).whole _ _ _ h
  | left h =>
    rw [within_sourceOf] at h
    rw [locate_left]
    exact (hargs _ List.mem_cons_self).whole _ _ _ h
  | right h =>
    rw [within_sourceOf] at h
    rw [locate_right]
    exact (hargs _ (List.mem_cons_of_mem _ List.mem_cons_self)).whole _ _ _ h
  | list h =>
    rw [within_sourceOf] at h
    rw [locate_list]
    exact eq_of_alignElements ((hargs _ List.mem_cons_self).whole _) h
  | map h =>
    rw [locate_map]
    refine eq_of_alignEntries (fun position key x items hx => ?_) h
    rw [← sourceOf_entry around] at hx
    exact (hargs _ (List.mem_cons_of_mem _ List.mem_cons_self)).whole _ _ _ hx
  | leaf hp =>
    rw [nameFor_sourceOf, locate_leaf hp]
    rfl

/-- By induction on the type: what is around a value grows on the way down, so it has to be
arbitrary. -/
theorem locates (type : Expr) : Locates type := by
  induction type using Expr.induct with
  | literal l u =>
    intro around used queue items rest h
    cases h
  | seq elements u =>
    intro around used queue items rest h
    cases h
  | app p args annots w u ih =>
    intro around used queue items rest h
    rcases spliced_or_isSlot p with rfl | rfl | hslot
    · match args, ih, h with
      | a :: more, ih, h =>
        rw [align_storage] at h
        rw [slots, locate_storage]
        exact ih a List.mem_cons_self _ _ _ _ _ h
    · rw [align_pair] at h
      rw [slots, locate_pair]
      exact eq_of_alignAll ih h
    · obtain ⟨value, rfl, htakes⟩ := (align_slot_eq_ok_iff hslot).1 h
      refine ⟨?_, eq_of_takes ih htakes⟩
      rw [slots_of_isSlot hslot]
      rfl

end

/-! ### Names -/

/-- The name of a located value that has its turn when some names are given out. -/
structure IsNamed (earlier : List String) (l : Located) (name : String) : Prop where
  /-- The base is the name if it is new. -/
  of_new : ∀ base, base? l.around l.type = some base → base ∉ earlier → name = base
  /-- A base that is taken gets the smallest number that makes it new. -/
  of_taken : ∀ base, base? l.around l.type = some base → base ∈ earlier →
    Names.IsNumbered earlier base name
  /-- Without a base the primitive of the type is numbered. -/
  of_none : base? l.around l.type = none →
    Names.IsNumbered earlier (if l.prim = .type .bigMap then "bigmap" else l.prim.name) name

lemma isNamed_freshOr (earlier : List String) (l : Located) :
    IsNamed earlier l
      (Names.freshOr earlier.reverse (base? l.around l.type) (defaultName l.prim)) := by
  constructor
  · intro base hbase hnew
    rw [hbase, Names.freshOr_some (base?_ne_empty hbase)]
    exact (Names.fresh_spec _ _).1 (by simpa using hnew)
  · intro base hbase htaken
    rw [hbase, Names.freshOr_some (base?_ne_empty hbase), ← Names.isNumbered_reverse]
    exact (Names.fresh_spec _ _).2 (by simpa using htaken)
  · intro hnone
    rw [hnone, ← Names.isNumbered_reverse]
    exact Names.isNumbered_freshNumbered _ _

section

variable {type value : Expr} {items : List Item}

lemma nameItems_located (h : namedItems type value = .ok items) :
    nameItems ((located type value).map Located.aligned) = items := by
  obtain ⟨aligned, halign, rfl⟩ := namedItems_eq_ok_iff.1 h
  have heq : aligned = (located type value).map Located.aligned :=
    (locates type).whole [] value aligned halign
  rw [heq]

/-- The items are the located values in their order. -/
lemma map_place_of_namedItems (h : namedItems type value = .ok items) :
    items.map Item.place = (located type value).map Located.place := by
  rw [← nameItems_located h, map_place_nameItems, List.map_map]
  rfl

/-- Every item is named after those that come before it. -/
lemma isNamed_of_namedItems (h : namedItems type value = .ok items) {i : Nat} {item : Item}
    {l : Located} (hitem : items[i]? = some item) (hl : (located type value)[i]? = some l) :
    IsNamed ((items.take i).map Item.name) l item.name := by
  have hwish : ((located type value).map Located.aligned)[i]? = some l.aligned := by
    rw [List.getElem?_map, hl]
    rfl
  have hname := Names.getElem?_assign
    (fun used i => Names.freshOr used i.wanted (defaultName i.prim)) []
    ((located type value).map Located.aligned) i
  rw [← map_name_nameItems, nameItems_located h, List.getElem?_map, hitem, hwish,
    ← List.map_take, List.append_nil] at hname
  rw [Option.some.inj hname]
  exact isNamed_freshOr _ l

end

/-- The items of a storage value are the located values, and every one is named after its base, or
else after the primitive of its type, behind all items that come before it.  The base that an entry
of a map gives is what its key says, or else the label of the map, or else `map`, with the position
of the entry. -/
theorem name_of_namedItems {type value : Expr} {items : List Item}
    (h : namedItems type value = .ok items) :
    items.map Item.place = (located type value).map Located.place ∧
      (∀ (i : Nat) (item : Item) (l : Located), items[i]? = some item →
        (located type value)[i]? = some l →
          IsNamed ((items.take i).map Item.name) l item.name) ∧
      ∀ mapType position key,
        (∀ name, Says key name → entryName mapType position key = name) ∧
          ((∀ name, ¬ Says key name) → entryName mapType position key =
            mapType.label?.getD "map" ++ "_" ++ toString position) := by
  exact ⟨map_place_of_namedItems h, fun i item l => isNamed_of_namedItems h, entryName_spec⟩

/-- Five big maps: two in a map whose second key is empty, one in a labelled option, one without a
label and one with the label that the key of the first entry says. -/
theorem name_of_namedItems_ledgers :
    let ledger (annots : List String) : Expr :=
      app (.type .bigMap) [type0 .address, type0 .nat] annots false false
    let type := apply (.type .pair) [
      app (.type .map) [type0 .string, ledger []] ["%m"] false false,
      app (.type .option) [ledger []] ["%b"] false false, ledger [], ledger ["%tokens"]]
    let value := apply (.data .pair) [
      seq [apply (.data .elt) [string "tokens", int 3],
        apply (.data .elt) [string "", int 4]] false,
      apply (.data .some) [int 9], int 5, int 6]
    ∃ items, namedItems type value = .ok items ∧
      items.map Item.name = ["tokens", "m_1", "b", "bigmap_0", "tokens_0"] ∧
      (located type value).map (fun l => base? l.around l.type) =
        [some "tokens", some "m_1", some "b", none, some "tokens"] ∧
      ∀ (i : Nat) (item : Item) (l : Located), items[i]? = some item →
        (located type value)[i]? = some l →
          IsNamed ((items.take i).map Item.name) l item.name := by
  intro ledger type value
  let wish (name : Option String) (annots : List String) (n : Int) : Aligned :=
    ⟨name, .type .bigMap, ledger annots, int n⟩
  let aligned := [wish "tokens" [] 3, wish "m_1" [] 4, wish "b" [] 9, wish none [] 5,
    wish "tokens" ["%tokens"] 6]
  have hitems : namedItems type value = .ok (nameItems aligned) := by rfl
  exact ⟨_, hitems, by decide, rfl, (name_of_namedItems hitems).2.1⟩

end Michelson.Storage
