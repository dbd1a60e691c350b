/-
# The choices of a parameter type

The root of a parameter type is a position of its choices, and so are the two alternatives of every
choice at a position.  `ChoicePosition` says this as a relation between the sides that are taken
from the root and the type that they lead to, and `follow?` leads there side by side.

The list of positions that entrypoints are made of has every position (`mem_choicePositions_iff`)
and has them in the order of their sides (`pairwise_precedes_choicePositions`): a choice before its
alternatives and the left one with all that is below it before the right one.  Nothing stands in
this order before itself, so no position is listed twice.
-/
import Michelson.Entrypoint
import Michelson.Proofs.Expr.Traversal

namespace Michelson

namespace Branch

/-- The position of a side among the arguments of a choice. -/
def index : Branch → Nat
  | left => 0
  | right => 1

/-- Sides from the root come before others when the others go on from them, or take the right side
where they take the left one. -/
def Precedes : List Branch → List Branch → Prop :=
  List.Lex fun a b => a = left ∧ b = right

lemma precedes_append_cons (as : List Branch) (a : Branch) (bs : List Branch) :
    Precedes as (as ++ a :: bs) := by
  induction as with
  | nil => exact .nil
  | cons b as ih => exact .cons ih

lemma precedes_left_right (branch as bs : List Branch) :
    Precedes (branch ++ left :: as) (branch ++ right :: bs) := by
  induction branch with
  | nil => exact .rel ⟨rfl, rfl⟩
  | cons b branch ih => exact .cons ih

lemma Precedes.asymm {as bs : List Branch} (h : Precedes as bs) : ¬ Precedes bs as := by
  induction h with
  | nil => exact fun h => nomatch h
  | rel hside =>
    obtain ⟨rfl, rfl⟩ := hside
    intro h
    cases h with
    | rel hside => exact absurd hside.1 (by decide)
  | cons _ ih =>
    intro h
    cases h with
    | rel hside => exact absurd (hside.1.symm.trans hside.2) (by decide)
    | cons h => exact ih h

lemma not_precedes_self (as : List Branch) : ¬ Precedes as as :=
  fun h => h.asymm h

end Branch

namespace Expr

open Branch

/-- The tree that the sides lead to, the left side being the first argument and the right one the
second. -/
def follow? : List Branch → Expr → Option Expr
  | [], e => some e
  | side :: branch, e => (e.arg? side.index).bind (follow? branch)

/-- The positions in the choices of a type: the sides to take from the root and the type that is
there.  The root is one, and the alternatives of a choice of two types at a position are. -/
inductive ChoicePosition (root : Expr) : List Branch → Expr → Prop
  | root : ChoicePosition root [] root
  | left {branch l r annots w u} : ChoicePosition root branch (app (.type .or) [l, r] annots w u) →
      ChoicePosition root (branch ++ [.left]) l
  | right {branch l r annots w u} : ChoicePosition root branch (app (.type .or) [l, r] annots w u) →
      ChoicePosition root (branch ++ [.right]) r

variable {root e n : Expr} {branch : List Branch}

/-! ### Choices -/

lemma isChoice_app {l r : Expr} {annots : List String} {w u : Bool} :
    (app (.type .or) [l, r] annots w u).isChoice := rfl

lemma exists_choice_of_isChoice (h : e.isChoice) :
    ∃ l r annots w u, e = app (.type .or) [l, r] annots w u := by
  cases e with
  | literal l u => simp [isChoice, applies, prim?] at h
  | seq items u => simp [isChoice, applies, prim?] at h
  | app p args annots w u =>
    simp only [isChoice, applies, prim?, Expr.args, Bool.and_eq_true, beq_iff_eq,
      Option.some.injEq] at h
    obtain ⟨rfl, hlength⟩ := h
    obtain ⟨l, r, rfl⟩ := List.length_eq_two.1 hlength
    exact ⟨l, r, annots, w, u, rfl⟩

/-- Induction over the choices of a type: a choice from its two alternatives, and any other type
for itself. -/
theorem inductChoice {P : Expr → Prop}
    (choice : ∀ l r annots w u, P l → P r → P (app (.type .or) [l, r] annots w u))
    (other : ∀ e, ¬ e.isChoice → P e) (e : Expr) : P e := by
  induction e using inductArgs with
  | node e ih =>
    by_cases h : e.isChoice
    · obtain ⟨l, r, annots, w, u, rfl⟩ := exists_choice_of_isChoice h
      exact choice l r annots w u (ih l (by simp [args])) (ih r (by simp [args]))
    · exact other e h

/-! ### The list of positions -/

lemma choicePositions_choice (branch : List Branch) (l r : Expr) (annots : List String)
    (w u : Bool) :
    choicePositions branch (app (.type .or) [l, r] annots w u) =
      (branch, app (.type .or) [l, r] annots w u) ::
        (choicePositions (branch ++ [.left]) l ++ choicePositions (branch ++ [.right]) r) := by
  simp [choicePositions, alternatives]

lemma choicePositions_of_not_isChoice (h : ¬ e.isChoice) (branch : List Branch) :
    choicePositions branch e = [(branch, e)] := by
  cases e with
  | literal l u => rfl
  | seq items u => rfl
  | app p args annots w u =>
    have hno : ¬ (p = .type .or && args.length == 2) := by
      simpa [isChoice, applies, prim?, Expr.args] using h
    rw [choicePositions, if_neg hno]

lemma mem_choicePositions_self (branch : List Branch) (e : Expr) :
    (branch, e) ∈ choicePositions branch e := by
  by_cases h : e.isChoice
  · obtain ⟨l, r, annots, w, u, rfl⟩ := exists_choice_of_isChoice h
    rw [choicePositions_choice]
    exact List.mem_cons_self
  · rw [choicePositions_of_not_isChoice h]
    exact List.mem_cons_self

/-- With a choice its alternatives are listed. -/
lemma mem_choicePositions_sides {branch b : List Branch} {l r : Expr} {annots : List String}
    {w u : Bool} (h : (b, app (.type .or) [l, r] annots w u) ∈ choicePositions branch e) :
    (b ++ [.left], l) ∈ choicePositions branch e ∧
      (b ++ [.right], r) ∈ choicePositions branch e := by
  induction e using inductChoice generalizing branch with
  | choice l' r' annots' w' u' ihl ihr =>
    rw [choicePositions_choice] at h ⊢
    simp only [List.mem_cons, List.mem_append] at h ⊢
    rcases h with heq | h | h
    · cases heq
      exact ⟨.inr (.inl (mem_choicePositions_self _ l)), .inr (.inr (mem_choicePositions_self _ r))⟩
    · exact ⟨.inr (.inl (ihl h).1), .inr (.inl (ihl h).2)⟩
    · exact ⟨.inr (.inr (ihr h).1), .inr (.inr (ihr h).2)⟩
  | other e hno =>
    rw [choicePositions_of_not_isChoice hno, List.mem_singleton] at h
    cases h
    exact absurd isChoice_app hno

/-- What is listed below a position is a position. -/
lemma ChoicePosition.of_mem (hpos : ChoicePosition root branch e) {b : List Branch}
    (h : (b, n) ∈ choicePositions branch e) : ChoicePosition root b n := by
  induction e using inductChoice generalizing branch with
  | choice l r annots w u ihl ihr =>
    rw [choicePositions_choice] at h
    simp only [List.mem_cons, List.mem_append] at h
    rcases h with heq | h | h
    · cases heq
      exact hpos
    · exact ihl hpos.left h
    · exact ihr hpos.right h
  | other e hno =>
    rw [choicePositions_of_not_isChoice hno, List.mem_singleton] at h
    cases h
    exact hpos

/-- The list has the positions of a type and nothing else. -/
theorem mem_choicePositions_iff :
    (branch, n) ∈ choicePositions [] root ↔ ChoicePosition root branch n := by
  constructor
  · exact ChoicePosition.root.of_mem
  · intro h
    induction h with
    | root => exact mem_choicePositions_self [] root
    | left _ ih => exact (mem_choicePositions_sides ih).1
    | right _ ih => exact (mem_choicePositions_sides ih).2

/-! ### The order of positions -/

lemma isPrefix_of_mem_choicePositions {branch b : List Branch}
    (h : (b, n) ∈ choicePositions branch e) : ∃ rest, b = branch ++ rest := by
  induction e using inductChoice generalizing branch with
  | choice l r annots w u ihl ihr =>
    rw [choicePositions_choice] at h
    simp only [List.mem_cons, List.mem_append] at h
    rcases h with heq | h | h
    · cases heq
      exact ⟨[], (List.append_nil _).symm⟩
    · obtain ⟨rest, rfl⟩ := ihl h
      exact ⟨.left :: rest, List.append_assoc ..⟩
    · obtain ⟨rest, rfl⟩ := ihr h
      exact ⟨.right :: rest, List.append_assoc ..⟩
  | other e hno =>
    rw [choicePositions_of_not_isChoice hno, List.mem_singleton] at h
    cases h
    exact ⟨[], (List.append_nil _).symm⟩

/-- The positions are listed from the root down, left before right. -/
theorem pairwise_precedes_choicePositions (branch : List Branch) (e : Expr) :
    (choicePositions branch e).Pairwise fun p q => Precedes p.1 q.1 := by
  induction e using inductChoice generalizing branch with
  | choice l r annots w u ihl ihr =>
    rw [choicePositions_choice, List.pairwise_cons, List.pairwise_append]
    refine ⟨fun q hq => ?_, ihl _, ihr _, fun p hp q hq => ?_⟩
    · -- the sides below a choice go on from those to the choice
      obtain ⟨b, n⟩ := q
      rcases List.mem_append.1 hq with hq | hq
      · obtain ⟨rest, rfl⟩ := isPrefix_of_mem_choicePositions hq
        rw [List.append_assoc]
        exact precedes_append_cons branch _ rest
      · obtain ⟨rest, rfl⟩ := isPrefix_of_mem_choicePositions hq
        rw [List.append_assoc]
        exact precedes_append_cons branch _ rest
    · -- those of the two alternatives part at the choice
      obtain ⟨b, n⟩ := p
      obtain ⟨c, m⟩ := q
      obtain ⟨as, rfl⟩ := isPrefix_of_mem_choicePositions hp
      obtain ⟨bs, rfl⟩ := isPrefix_of_mem_choicePositions hq
      rw [List.append_assoc, List.append_assoc]
      exact precedes_left_right branch as bs
  | other e hno =>
    rw [choicePositions_of_not_isChoice hno]
    exact List.pairwise_singleton _ _

/-! ### Following the sides -/

lemma follow?_append (as bs : List Branch) (e : Expr) :
    follow? (as ++ bs) e = (follow? as e).bind (follow? bs) := by
  induction as generalizing e with
  | nil => rfl
  | cons a as ih =>
    rw [List.cons_append, follow?, follow?, Option.bind_assoc]
    exact congrArg _ (funext ih)

/-- The sides of a position lead to the type at this position. -/
lemma ChoicePosition.follow?_eq (h : ChoicePosition root branch e) :
    follow? branch root = some e := by
  induction h with
  | root => rfl
  | left _ ih => rw [follow?_append, ih]; rfl
  | right _ ih => rw [follow?_append, ih]; rfl

lemma ChoicePosition.type_unique {e' : Expr} (h : ChoicePosition root branch e)
    (h' : ChoicePosition root branch e') : e = e' :=
  Option.some.inj (h.follow?_eq.symm.trans h'.follow?_eq)

end Expr

end Michelson
