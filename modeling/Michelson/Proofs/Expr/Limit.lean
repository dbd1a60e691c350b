/-
# A limit on depth only cuts off

Two readers of trees with different limits do the same, step by step, up to the point where the one
with the smaller limit gives up.  So its result is the limit itself as an error, or it is the result
of the other reader: the same tree or the same error (`CutsOff`).  Everything that readers are put
together from keeps this relation, windows within windows included, since what is done before, in
and behind a part does not look at the limit.

What is cut off is only what is too deep: a tree that the larger limit admits is admitted by the
smaller one unless it is higher.  The main statement is `decode_eq_and_ofJson_eq_of_limit_le`.
-/
import Michelson.Proofs.Except
import Michelson.Proofs.Expr.Canonical

namespace Michelson

open Except (CutsOff)

/-! ### Readers of bytes -/

namespace Decoder

variable {α β : Type} {e : Error} {d d' : Decoder α}

/-- On every byte string the first decoder is cut off with an error, or it does what the second one
does, with the same bytes left. -/
def CutsOff (e : Error) (d d' : Decoder α) : Prop :=
  ∀ b, (∃ rest, d b = .error e rest) ∨ d' b = d b

namespace CutsOff

lemma same (d : Decoder α) : CutsOff e d d := fun _ => Or.inr rfl

lemma bind {k k' : α → Decoder β} (h : CutsOff e d d') (hk : ∀ a, CutsOff e (k a) (k' a)) :
    CutsOff e (d >>= k) (d' >>= k') := by
  intro b
  rcases h b with ⟨rest, hoff⟩ | hsame
  · exact Or.inl ⟨rest, bind_apply_of_error hoff⟩
  · cases hd : d b with
    | ok a rest =>
      rw [hd] at hsame
      rw [bind_apply_of_ok hd, bind_apply_of_ok hsame]
      exact hk a rest
    | error e' rest =>
      rw [hd] at hsame
      rw [bind_apply_of_error hd, bind_apply_of_error hsame]
      exact Or.inr rfl

lemma lift {x x' : Except Error α} (h : Except.CutsOff e x x') :
    CutsOff e (lift x) (lift x') := by
  intro b
  cases h with
  | off x' => exact Or.inl ⟨b, rfl⟩
  | same => exact Or.inr rfl

lemma decodeMany (h : CutsOff e d d') (count : Nat) :
    CutsOff e (Expr.decodeMany d count) (Expr.decodeMany d' count) := by
  induction count with
  | zero => exact same _
  | succ count ih => exact h.bind fun a => ih.bind fun rest => same _

/-- The items of a window are the same up to the first one that is cut off. -/
lemma items (h : CutsOff e d d') (stuck : Error) (fuel : Nat) (b : Bytes) :
    Except.CutsOff e (items stuck d fuel b) (items stuck d' fuel b) := by
  induction fuel generalizing b with
  | zero => cases b <;> exact .same _
  | succ fuel ih =>
    cases b with
    | nil => exact .same _
    | cons x b =>
      rw [Decoder.items, Decoder.items]
      rcases h (x :: b) with ⟨rest, hoff⟩ | hsame
      · rw [hoff]
        exact .off _
      · rw [hsame]
        cases d (x :: b) with
        | ok a rest => exact (ih rest).map _
        | error e' rest => exact .same _

lemma fill (h : CutsOff e d d') (window : Bytes) :
    Except.CutsOff e (fill d window) (fill d' window) :=
  h.items .shortBuffer window.length window

lemma runAll (h : CutsOff e d d') (b : Bytes) : Except.CutsOff e (d.runAll b) (d'.runAll b) := by
  rw [Decoder.runAll, Decoder.runAll]
  rcases h b with ⟨rest, hoff⟩ | hsame
  · rw [hoff]
    exact .off _
  · rw [hsame]
    exact .same _

end CutsOff

end Decoder

namespace Expr

variable {limit limit' levels levels' : Nat} {e : Error}

section

variable {part part' : Decoder Expr}

lemma cutsOff_decodeNarrow (h : Decoder.CutsOff e part part') (arity : Nat) (annotated : Bool) :
    Decoder.CutsOff e (decodeNarrow part arity annotated) (decodeNarrow part' arity annotated) := by
  refine (Decoder.CutsOff.same decodePrimitive).bind fun p => ?_
  exact (h.decodeMany arity).bind fun args => .same _

lemma cutsOff_decodeWide (h : Decoder.CutsOff e part part') :
    Decoder.CutsOff e (decodeWide part) (decodeWide part') := by
  refine (Decoder.CutsOff.same decodePrimitive).bind fun p => ?_
  refine (Decoder.CutsOff.same Decoder.block).bind fun window => ?_
  exact (Decoder.CutsOff.lift (h.fill window)).bind fun args => .same _

lemma cutsOff_decodeNode (h : Decoder.CutsOff e part part') (tag : UInt8) :
    Decoder.CutsOff e (decodeNode part tag) (decodeNode part' tag) := by
  unfold decodeNode
  split
  case h_3 =>
    refine (Decoder.CutsOff.same Decoder.block).bind fun window => ?_
    exact (Decoder.CutsOff.lift (h.fill window)).bind fun items => .same _
  case h_10 => exact cutsOff_decodeWide h
  -- literals and unknown tags have no parts
  case h_1 | h_2 | h_11 | h_12 => exact .same _
  -- the other tags are those of the narrow forms
  all_goals exact cutsOff_decodeNarrow h _ _

/-- A reader of fewer levels is cut off by its limit or does what a reader of more levels does. -/
lemma cutsOff_decodeWithin (limit limit' : Nat) (h : levels ≤ levels') :
    Decoder.CutsOff (.depthExceeded limit) (decodeWithin limit levels)
      (decodeWithin limit' levels') := by
  induction levels generalizing levels' with
  | zero => exact fun b => Or.inl ⟨b, rfl⟩
  | succ levels ih =>
    cases levels' with
    | zero => exact absurd h (Nat.not_succ_le_zero levels)
    | succ levels' =>
      exact (Decoder.CutsOff.same Decoder.byte).bind fun tag =>
        cutsOff_decodeNode (ih (Nat.le_of_succ_le_succ h)) tag

end

/-! ### Readers of JSON -/

section

variable {part part' : Json → Except Error Expr}

lemma cutsOff_readArgs (h : ∀ j, CutsOff e (part j) (part' j)) (member : Option Json) :
    CutsOff e (readArgs part member) (readArgs part' member) := by
  unfold readArgs
  split
  case h_3 items => exact CutsOff.mapM h items
  all_goals exact .same _

lemma cutsOff_ofJsonNode (h : ∀ j, CutsOff e (part j) (part' j)) (j : Json) :
    CutsOff e (ofJsonNode part j) (ofJsonNode part' j) := by
  unfold ofJsonNode
  split
  case h_1 items => exact (CutsOff.mapM h items).bind fun items => .same _
  case h_2 members =>
    split
    · exact .same _
    · refine (CutsOff.same _).bind fun p => ?_
      exact (cutsOff_readArgs h _).bind fun args => .same _
  case h_3 => exact .same _

lemma cutsOff_ofJsonWithin (limit limit' : Nat) (h : levels ≤ levels') (j : Json) :
    CutsOff (.depthExceeded limit) (ofJsonWithin limit levels j)
      (ofJsonWithin limit' levels' j) := by
  induction levels generalizing levels' j with
  | zero => exact .off _
  | succ levels ih =>
    cases levels' with
    | zero => exact absurd h (Nat.not_succ_le_zero levels)
    | succ levels' => exact cutsOff_ofJsonNode (ih (Nat.le_of_succ_le_succ h)) j

/-! ### What is cut off -/

/-- A node is read the same way by a reader that reads its parts the same way. -/
lemma ofJsonNode_eq_ok_of_parts {j : Json} {tree : Expr} (h : ofJsonNode part' j = .ok tree)
    (hparts : ∀ a ∈ tree.args, ∀ j, part' j = .ok a → part j = .ok a) :
    ofJsonNode part j = .ok tree := by
  unfold ofJsonNode at h ⊢
  split at h
  case h_1 =>
    obtain ⟨items, hitems, h⟩ := Except.bind_eq_ok_iff.1 h
    cases h
    rw [Except.mapM_eq_ok_of_mapM hitems hparts]
    rfl
  case h_2 members =>
    split at h
    case h_1 => exact h
    case h_2 =>
      obtain ⟨p, hp, h⟩ := Except.bind_eq_ok_iff.1 h
      obtain ⟨args, hargs, h⟩ := Except.bind_eq_ok_iff.1 h
      obtain ⟨annots, hannots, h⟩ := Except.bind_eq_ok_iff.1 h
      cases h
      have hread : readArgs part (NameMap.find? "args" members) = .ok args := by
        unfold readArgs at hargs ⊢
        split at hargs
        case h_3 => exact Except.mapM_eq_ok_of_mapM hargs hparts
        all_goals exact hargs
      simp only [hp, hread, hannots, Except.ok_bind]
      rfl
  case h_3 => cases h

/-- A tree that is read in some number of levels is read in every number of levels above its
height. -/
lemma ofJsonWithin_eq_ok_of_height_lt {j : Json} {tree : Expr}
    (h : ofJsonWithin limit' levels' j = .ok tree) (hheight : tree.height < levels) :
    ofJsonWithin limit levels j = .ok tree := by
  induction levels generalizing levels' j tree with
  | zero => exact absurd hheight (Nat.not_lt_zero _)
  | succ levels ih =>
    cases levels' with
    | zero => cases h
    | succ levels' =>
      refine ofJsonNode_eq_ok_of_parts h fun a ha j hj => ih hj ?_
      exact height_le_iff.1 (Nat.le_of_lt_succ hheight) a ha

end

lemma decode_eq_ok_iff_of_limit_le (h : limit ≤ limit') (b : Bytes) (tree : Expr) :
    decode limit b = .ok tree ↔ decode limit' b = .ok tree ∧ tree.height ≤ limit := by
  rw [decode_eq_ok_iff, decode_eq_ok_iff]
  constructor
  · rintro ⟨rfl, hread⟩
    exact ⟨⟨rfl, hread.mono (Nat.succ_le_succ h)⟩, Nat.le_of_lt_succ hread.height_lt⟩
  · rintro ⟨⟨rfl, hread⟩, hheight⟩
    exact ⟨rfl, hread.spellable, hread.normal_eq, Nat.lt_succ_of_le hheight⟩

lemma ofJson_eq_ok_iff_of_limit_le (h : limit ≤ limit') (j : Json) (tree : Expr) :
    ofJson limit j = .ok tree ↔ ofJson limit' j = .ok tree ∧ tree.height ≤ limit := by
  constructor
  · intro hread
    have hlt := (isCanonical_of_ofJsonWithin _ _ _ _ hread).height_lt
    exact ⟨ofJsonWithin_eq_ok_of_height_lt hread (hlt.trans_le (Nat.succ_le_succ h)),
      Nat.le_of_lt_succ hlt⟩
  · rintro ⟨hread, hheight⟩
    exact ofJsonWithin_eq_ok_of_height_lt hread (Nat.lt_succ_of_le hheight)

/-- Under a larger limit the same bytes and the same JSON values are read to the same result, the
same tree or the same error, unless they were refused for the smaller limit itself.  And the trees
that are admitted under the smaller limit are those admitted under the larger one that are not
higher than the smaller. -/
theorem decode_eq_and_ofJson_eq_of_limit_le {limit limit' : Nat} (h : limit ≤ limit') :
    (∀ b, decode limit b ≠ .error (.depthExceeded limit) → decode limit' b = decode limit b) ∧
      (∀ j, ofJson limit j ≠ .error (.depthExceeded limit) → ofJson limit' j = ofJson limit j) ∧
      (∀ b e, decode limit b = .ok e ↔ decode limit' b = .ok e ∧ e.height ≤ limit) ∧
      ∀ j e, ofJson limit j = .ok e ↔ ofJson limit' j = .ok e ∧ e.height ≤ limit := by
  have hlevels : limit + 1 ≤ limit' + 1 := Nat.succ_le_succ h
  refine ⟨fun b hb => ?_, fun j hj => ?_, decode_eq_ok_iff_of_limit_le h,
    ofJson_eq_ok_iff_of_limit_le h⟩
  · exact ((cutsOff_decodeWithin limit limit' hlevels).runAll b).eq_of_ne hb
  · exact (cutsOff_ofJsonWithin limit limit' hlevels j).eq_of_ne hj

/-- A bad tag in a sequence in a sequence: the limit one comes before the tag, and the limits two
and three do not change what is wrong with it.  In the same place of a JSON value a bad number. -/
theorem decode_eq_and_ofJson_eq_of_limit_le_malformed :
    let b : Bytes := [2, 0, 0, 0, 6, 2, 0, 0, 0, 1, 255]
    let j : Json := .array [.array [.object [("int", .text "1.5")]]]
    decode 1 b = .error (.depthExceeded 1) ∧ ofJson 1 j = .error (.depthExceeded 1) ∧
      decode 2 b = .error (.invalidTag 255) ∧ decode 3 b = .error (.invalidTag 255) ∧
      ofJson 2 j = .error (.invalidInteger (.notDecimal "1.5")) ∧
      ofJson 3 j = .error (.invalidInteger (.notDecimal "1.5")) := by
  intro b j
  have hb : decode 2 b = .error (.invalidTag 255) := by rfl
  have hj : ofJson 2 j = .error (.invalidInteger (.notDecimal "1.5")) := by rfl
  obtain ⟨hdecode, hofJson, -⟩ :=
    decode_eq_and_ofJson_eq_of_limit_le (show (2 : Nat) ≤ 3 by decide)
  refine ⟨by rfl, by rfl, hb, ?_, hj, ?_⟩
  · rw [hdecode b (by rw [hb]; simp), hb]
  · rw [hofJson j (by rw [hj]; simp), hj]

end Expr

end Michelson
