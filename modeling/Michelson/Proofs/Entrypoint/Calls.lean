/-
# Calls of entrypoints

The value of a call has the sides of its entrypoint around the argument, from the root inwards, and
routing takes them off again one by one.  It stops at the first position where an entrypoint is that
is no choice.  All positions on the way to another position are choices
(`ChoicePosition.choice_of_append`), so on the way of a call it stops nowhere before the end, and
there it stops whatever the argument looks like.

The main statement is `called?_call`, in both directions.
-/
import Michelson.Expr.Compare
import Michelson.Proofs.Entrypoint.Listing

namespace Michelson

namespace Expr

variable {root e : Expr}

/-- Any tree is the same as itself. -/
lemma compare_self (annotated : Bool) (e : Expr) : compare annotated e e := by
  have hall : ∀ es : List Expr, (∀ e ∈ es, compare annotated e e) →
      compareAll annotated es es := by
    intro es h
    induction es with
    | nil => rfl
    | cons e es ih =>
      rw [compareAll, h e List.mem_cons_self, ih fun a ha => h a (List.mem_cons_of_mem e ha)]
      rfl
  induction e using Expr.induct with
  | literal l u => simp [compare]
  | seq items u ih =>
    rw [compare]
    exact hall items ih
  | app p args annots w u ih =>
    rw [compare, hall args ih]
    simp

/-- The last side leads to a position from a choice. -/
lemma ChoicePosition.choice_of_concat {above : List Branch} {side : Branch}
    (h : root.ChoicePosition (above ++ [side]) e) :
    ∃ c, root.ChoicePosition above c ∧ c.isChoice := by
  generalize hsides : above ++ [side] = sides at h
  cases h with
  | root => simp at hsides
  | left hpos =>
    obtain ⟨rfl, -⟩ := List.append_inj' hsides rfl
    exact ⟨_, hpos, isChoice_app⟩
  | right hpos =>
    obtain ⟨rfl, -⟩ := List.append_inj' hsides rfl
    exact ⟨_, hpos, isChoice_app⟩

/-- What is on the way to a position is a choice. -/
lemma ChoicePosition.choice_of_append {above below : List Branch} {side : Branch}
    (h : root.ChoicePosition (above ++ side :: below) e) :
    ∃ c, root.ChoicePosition above c ∧ c.isChoice := by
  induction below using List.reverseRecOn generalizing e with
  | nil => exact h.choice_of_concat
  | append_singleton below last ih =>
    rw [← List.cons_append, ← List.append_assoc] at h
    obtain ⟨c, hc, -⟩ := h.choice_of_concat
    exact ih hc

end Expr

namespace Entrypoint

open Michelson.Expr

variable {parameter : Expr} {entry : Entrypoint} {entrypoints : List Entrypoint}
  {sides : List Branch} {value argument : Expr}

/-! ### Where routing stops -/

/-- The entrypoint after some sides, if there is one that is no choice. -/
def endAt? (entrypoints : List Entrypoint) (sides : List Branch) : Option Entrypoint :=
  entrypoints.find? fun e => e.branch == sides && !e.type.applies (.type .or)

lemma endAt?_eq_some_iff : endAt? (ofType parameter) sides = some entry ↔
    entry ∈ ofType parameter ∧ entry.branch = sides ∧ ¬ entry.type.applies (.type .or) := by
  constructor
  · intro h
    have hend := List.find?_some h
    rw [Bool.and_eq_true, beq_iff_eq, Bool.not_eq_true', ← Bool.not_eq_true] at hend
    exact ⟨List.mem_of_find?_eq_some h, hend⟩
  · rintro ⟨hmem, rfl, hend⟩
    refine find?_eq_some_of_unique hmem (by simpa using hend) fun b hb hp => ?_
    rw [Bool.and_eq_true, beq_iff_eq] at hp
    exact List.inj_on_of_nodup_map (nodup_map_branch parameter) hb hmem hp.1

/-- Routing does not stop at a choice. -/
lemma endAt?_eq_none_of_isChoice {type : Expr} (h : parameter.ChoicePosition sides type)
    (hchoice : type.isChoice) : endAt? (ofType parameter) sides = none := by
  cases hend : endAt? (ofType parameter) sides with
  | none => rfl
  | some entry =>
    obtain ⟨hmem, rfl, hno⟩ := endAt?_eq_some_iff.1 hend
    rw [← h.type_unique (choicePosition_of_mem hmem)] at hno
    exact absurd (Bool.and_eq_true_iff.1 hchoice).1 hno

/-! ### One step -/

/-- Routing stops at an entrypoint that is no choice, and otherwise goes on into the first argument
of a side. -/
lemma route_eq (entrypoints : List Entrypoint) (sides : List Branch) (value : Expr) :
    route entrypoints sides value =
      match endAt? entrypoints sides with
      | some e => some (e, value)
      | none =>
        match side? value, value.args with
        | some side, inner :: _ => route entrypoints (sides ++ [side]) inner
        | _, _ => none := by
  cases value with
  | literal l u => cases h : endAt? entrypoints sides <;> exact congrArg (Option.map _) h
  | seq items u => cases h : endAt? entrypoints sides <;> exact congrArg (Option.map _) h
  | app p args annots w u => exact route.eq_def ..

lemma route_of_endAt? (h : endAt? entrypoints sides = some entry) (value : Expr) :
    route entrypoints sides value = some (entry, value) := by
  rw [route_eq, h]

lemma side?_data1 (side : Branch) (value : Expr) :
    side? (data1 side.constructor value) = some side := by
  cases side <;> rfl

lemma route_side (h : endAt? entrypoints sides = none) (side : Branch) (value : Expr) :
    route entrypoints sides (data1 side.constructor value) =
      route entrypoints (sides ++ [side]) value := by
  rw [route_eq, h, side?_data1]
  rfl

lemma exists_of_side? {side : Branch} (h : side? value = some side) :
    ∃ args annots w u, value = app (.data side.constructor) args annots w u := by
  cases value with
  | literal l u => cases h
  | seq items u => cases h
  | app p args annots w u =>
    rw [side?, prim?] at h
    split at h
    case h_1 hprim =>
      cases hprim
      cases h
      exact ⟨args, annots, w, u, rfl⟩
    case h_2 hprim =>
      cases hprim
      cases h
      exact ⟨args, annots, w, u, rfl⟩
    case h_3 => cases h

/-- Routing that leads somewhere has stopped or has gone on into a side. -/
lemma route_eq_some (h : route entrypoints sides value = some (entry, argument)) :
    (endAt? entrypoints sides = some entry ∧ argument = value) ∨
      ∃ side inner rest annots w u,
        value = app (.data side.constructor) (inner :: rest) annots w u ∧
          route entrypoints (sides ++ [side]) inner = some (entry, argument) := by
  rw [route_eq] at h
  split at h
  case h_1 e hend =>
    cases h
    exact .inl ⟨hend, rfl⟩
  case h_2 =>
    split at h
    case h_1 side inner rest hside hargs =>
      obtain ⟨args, annots, w, u, rfl⟩ := exists_of_side? hside
      cases hargs
      exact .inr ⟨side, inner, rest, annots, w, u, rfl, h⟩
    case h_2 => cases h

/-! ### The whole way -/

/-- The value with some sides around an argument. -/
def wrap (sides : List Branch) (argument : Expr) : Expr :=
  sides.foldr (fun side v => Expr.data1 side.constructor v) argument

/-- Routing takes off the sides that are left on the way to an entrypoint. -/
lemma route_wrap (hmem : entry ∈ ofType parameter) (hend : ¬ entry.type.applies (.type .or))
    {rest : List Branch} (h : entry.branch = sides ++ rest) (argument : Expr) :
    route (ofType parameter) sides (wrap rest argument) = some (entry, argument) := by
  induction rest generalizing sides with
  | nil =>
    rw [List.append_nil] at h
    exact route_of_endAt? (endAt?_eq_some_iff.2 ⟨hmem, h, hend⟩) argument
  | cons side rest ih =>
    have hpos := choicePosition_of_mem hmem
    rw [h] at hpos
    obtain ⟨c, hc, hchoice⟩ := hpos.choice_of_append
    rw [wrap, List.foldr_cons, route_side (endAt?_eq_none_of_isChoice hc hchoice)]
    exact ih (by rw [h, List.append_assoc, List.singleton_append])

/-- The sides that routing took off, put around the argument again, are those of the value. -/
lemma sameShape_wrap_of_route
    (hvalue : ∀ n ∈ value.nodes, n.applies (.data .left) ∨ n.applies (.data .right) →
      n.args.length = 1)
    (h : route (ofType parameter) sides value = some (entry, argument)) :
    ∃ rest, entry.branch = sides ++ rest ∧ sameShape (wrap rest argument) value := by
  induction value using inductArgs generalizing sides with
  | node value ih =>
    rcases route_eq_some h with ⟨hend, rfl⟩ | ⟨side, inner, rest, annots, w, u, rfl, hinner⟩
    · exact ⟨[], by rw [(endAt?_eq_some_iff.1 hend).2.1, List.append_nil], compare_self false _⟩
    · obtain ⟨hroot, hargs⟩ := forall_mem_nodes.1 hvalue
      have hone : (inner :: rest).length = 1 :=
        hroot (by cases side <;> simp [applies, prim?, Branch.constructor])
      obtain rfl : rest = [] := by simpa using hone
      have hmem : inner ∈ (app (.data side.constructor) [inner] annots w u).args :=
        List.mem_cons_self
      obtain ⟨sides', hsides, hsame⟩ := ih inner hmem (hargs inner hmem) hinner
      refine ⟨side :: sides', by rw [hsides, List.append_assoc, List.singleton_append], ?_⟩
      rw [wrap, List.foldr_cons, ← wrap, data1, apply1, Expr.apply, sameShape, Expr.compare,
        compareAll, compareAll, ← sameShape, hsame]
      simp

/-- Calling an entrypoint that is no choice and routing the call are inverse.  The call with any
argument, itself a side or not, is routed to this entrypoint and this argument.  And when the sides
in a value have one argument each, the call of the entrypoint that the value is routed to, with the
argument found there, is the value again apart from annotations. -/
theorem called?_call (parameter : Expr) :
    (∀ entry ∈ ofType parameter, ¬ entry.type.applies (.type .or) →
      ∀ argument, called? (ofType parameter) (entry.call argument) = some (entry, argument)) ∧
      ∀ value, (∀ n ∈ value.nodes, n.applies (.data .left) ∨ n.applies (.data .right) →
        n.args.length = 1) →
      ∀ entry argument, called? (ofType parameter) value = some (entry, argument) →
        sameShape (entry.call argument) value := by
  constructor
  · intro entry hmem hend argument
    exact route_wrap hmem hend (List.nil_append _).symm argument
  · intro value hvalue entry argument h
    obtain ⟨rest, hrest, hsame⟩ := sameShape_wrap_of_route hvalue h
    rw [List.nil_append] at hrest
    rwa [call, hrest]

/-- An argument that is a side itself, for a leaf below a named choice: neither takes the call off
its way, and a call in the wide form with an annotation has the shape of the plain one. -/
theorem called?_call_right :
    let parameter := type2 .or (app (.type .or) [type0 .nat, type0 .string] ["%admin"] false false)
      (type0 .unit)
    let entry : Entrypoint := ⟨2, "default_0", [.left, .right], type0 .string⟩
    let argument := data1 .right (int 5)
    let value := app (.data .left) [data1 .right argument] ["@v"] true true
    entry ∈ ofType parameter ∧
      called? (ofType parameter) (entry.call argument) = some (entry, argument) ∧
      called? (ofType parameter) value = some (entry, argument) ∧
      sameShape (entry.call argument) value := by
  intro parameter entry argument value
  have hlist : ofType parameter =
      [⟨0, "admin", [.left], app (.type .or) [type0 .nat, type0 .string] ["%admin"] false false⟩,
        ⟨1, "default", [.left, .left], type0 .nat⟩, entry,
        ⟨3, "default_1", [.right], type0 .unit⟩] := by cbv
  have hmem : entry ∈ ofType parameter := by simp [hlist]
  have hcalled : called? (ofType parameter) value = some (entry, argument) := by cbv
  have hone : ∀ n ∈ value.nodes, n.applies (.data .left) ∨ n.applies (.data .right) →
      n.args.length = 1 := by decide +kernel
  obtain ⟨hforward, hback⟩ := called?_call parameter
  exact ⟨hmem, hforward entry hmem (by decide) argument, hcalled,
    hback value hone entry argument hcalled⟩

end Entrypoint

end Michelson
