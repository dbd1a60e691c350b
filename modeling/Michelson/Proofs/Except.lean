/-
# Results one after the other

What a step that may fail does in front of the steps behind it.
-/
import Mathlib.Tactic

namespace Except

variable {ε α β γ : Type}

@[simp] lemma ok_bind (a : α) (f : α → Except ε β) : (Except.ok a >>= f) = f a := rfl

@[simp] lemma error_bind (e : ε) (f : α → Except ε β) : (Except.error e >>= f) = .error e := rfl

lemma bind_eq_ok_iff {x : Except ε α} {f : α → Except ε β} {b : β} :
    (x >>= f) = .ok b ↔ ∃ a, x = .ok a ∧ f a = .ok b := by
  cases x with
  | ok a => simp
  | error e => simp

lemma isOk_iff {x : Except ε α} : x.isOk ↔ ∃ a, x = .ok a := by
  cases x with
  | ok a => simp [Except.isOk, Except.toBool]
  | error e => simp [Except.isOk, Except.toBool]

lemma map_map (x : Except ε α) (f : α → β) (g : β → γ) :
    (x.map f).map g = x.map fun a => g (f a) := by
  cases x <;> rfl

lemma map_eq_ok_iff {x : Except ε α} {f : α → β} {b : β} :
    x.map f = .ok b ↔ ∃ a, x = .ok a ∧ f a = b := by
  cases x with
  | ok a => simp [Except.map]
  | error e => simp [Except.map]

/-- A list is mapped as a whole only if every member is. -/
lemma exists_of_mem_mapM {f : α → Except ε β} {as : List α} {bs : List β}
    (h : as.mapM f = .ok bs) {b : β} (hb : b ∈ bs) : ∃ a ∈ as, f a = .ok b := by
  induction as generalizing bs with
  | nil =>
    cases h
    exact absurd hb List.not_mem_nil
  | cons a as ih =>
    rw [List.mapM_cons] at h
    obtain ⟨c, hc, h⟩ := bind_eq_ok_iff.1 h
    obtain ⟨cs, hcs, h⟩ := bind_eq_ok_iff.1 h
    cases h
    rcases List.mem_cons.1 hb with rfl | hb
    · exact ⟨a, List.mem_cons_self, hc⟩
    · obtain ⟨a', ha', h⟩ := ih hcs hb
      exact ⟨a', List.mem_cons_of_mem a ha', h⟩

lemma length_eq_of_mapM {f : α → Except ε β} {as : List α} {bs : List β}
    (h : as.mapM f = .ok bs) : bs.length = as.length := by
  induction as generalizing bs with
  | nil =>
    cases h
    rfl
  | cons a as ih =>
    rw [List.mapM_cons] at h
    obtain ⟨c, -, h⟩ := bind_eq_ok_iff.1 h
    obtain ⟨cs, hcs, h⟩ := bind_eq_ok_iff.1 h
    cases h
    rw [List.length_cons, List.length_cons, ih hcs]

/-- The members of a list that is mapped as a whole, side by side with what they are mapped to. -/
lemma forall₂_of_mapM {f : α → Except ε β} {as : List α} {bs : List β}
    (h : as.mapM f = .ok bs) : List.Forall₂ (fun a b => f a = .ok b) as bs := by
  induction as generalizing bs with
  | nil =>
    cases h
    exact .nil
  | cons a as ih =>
    rw [List.mapM_cons] at h
    obtain ⟨c, hc, h⟩ := bind_eq_ok_iff.1 h
    obtain ⟨cs, hcs, h⟩ := bind_eq_ok_iff.1 h
    cases h
    exact .cons hc (ih hcs)

/-- A list is mapped as a whole when every member is. -/
lemma mapM_eq_ok_of_forall {f : α → Except ε β} {g : α → β} {as : List α}
    (h : ∀ a ∈ as, f a = .ok (g a)) : as.mapM f = .ok (as.map g) := by
  induction as with
  | nil => rfl
  | cons a as ih =>
    rw [List.mapM_cons, h a List.mem_cons_self, ih fun b hb => h b (List.mem_cons_of_mem a hb)]
    rfl

/-- What a list is mapped to, it is mapped to by every function that gives the same members. -/
lemma mapM_eq_ok_of_mapM {f f' : α → Except ε β} {as : List α} {bs : List β}
    (h : as.mapM f' = .ok bs) (hf : ∀ b ∈ bs, ∀ a, f' a = .ok b → f a = .ok b) :
    as.mapM f = .ok bs := by
  induction as generalizing bs with
  | nil => exact h
  | cons a as ih =>
    rw [List.mapM_cons] at h ⊢
    obtain ⟨c, hc, h⟩ := bind_eq_ok_iff.1 h
    obtain ⟨cs, hcs, h⟩ := bind_eq_ok_iff.1 h
    cases h
    rw [hf c List.mem_cons_self a hc, ok_bind,
      ih hcs fun b hb => hf b (List.mem_cons_of_mem c hb)]
    rfl

/-- What every step keeps, a run of steps keeps. -/
lemma keeps_of_foldlM {P : β → Prop} {f : β → α → Except ε β}
    (hstep : ∀ b a b', P b → f b a = .ok b' → P b') {as : List α} {b b' : β} (hb : P b)
    (h : as.foldlM f b = .ok b') : P b' := by
  induction as generalizing b with
  | nil =>
    cases h
    exact hb
  | cons a as ih =>
    rw [List.foldlM_cons] at h
    obtain ⟨mid, hmid, h⟩ := bind_eq_ok_iff.1 h
    exact ih (hstep b a mid hb hmid) h

/-! ### Two runs side by side -/

/-- Two results that differ by a function of the value.  When one run fails so does the other, for a
reason of its own. -/
inductive Mirrors (f : α → β) : Except ε β → Except ε α → Prop
  | ok (a : α) : Mirrors f (.ok (f a)) (.ok a)
  | error (e' e : ε) : Mirrors f (.error e') (.error e)

namespace Mirrors

variable {f : α → β} {x : Except ε α} {x' : Except ε β}

lemma bind {α' β' : Type} {g : α' → β'} {k : α → Except ε α'} {k' : β → Except ε β'}
    (h : Mirrors f x' x) (hk : ∀ a, Mirrors g (k' (f a)) (k a)) :
    Mirrors g (x' >>= k') (x >>= k) := by
  cases h with
  | ok a => exact hk a
  | error e' e => exact .error e' e

lemma eq_ok {a : α} (h : Mirrors f x' x) (hx : x = .ok a) : x' = .ok (f a) := by
  subst hx
  cases h
  rfl

lemma exists_of_ok {b : β} (h : Mirrors f x' x) (hx : x' = .ok b) : ∃ a, x = .ok a := by
  subst hx
  cases h
  exact ⟨_, rfl⟩

lemma of_imp (h : ∀ a, x = .ok a → x' = .ok (f a)) (h' : ∀ b, x' = .ok b → ∃ a, x = .ok a) :
    Mirrors f x' x := by
  cases x with
  | ok a =>
    rw [h a rfl]
    exact .ok a
  | error e =>
    cases x' with
    | ok b =>
      obtain ⟨a, ha⟩ := h' b rfl
      cases ha
    | error e' => exact .error e' e

end Mirrors

/-- Two results of which the first is *cut off* with an error, or is the same as the second. -/
inductive CutsOff (e : ε) : Except ε α → Except ε α → Prop
  | off (x : Except ε α) : CutsOff e (.error e) x
  | same (x : Except ε α) : CutsOff e x x

namespace CutsOff

variable {e : ε} {x x' : Except ε α}

lemma eq_of_ne (h : CutsOff e x x') (hx : x ≠ .error e) : x' = x := by
  cases h with
  | off x' => exact absurd rfl hx
  | same => rfl

lemma map (h : CutsOff e x x') (f : α → β) : CutsOff e (x.map f) (x'.map f) := by
  cases h with
  | off x' => exact .off _
  | same => exact .same _

lemma bind {k k' : α → Except ε β} (h : CutsOff e x x') (hk : ∀ a, CutsOff e (k a) (k' a)) :
    CutsOff e (x >>= k) (x' >>= k') := by
  cases h with
  | off x' => exact .off _
  | same =>
    cases x with
    | ok a => exact hk a
    | error e' => exact .same _

/-- A list is cut off where its first member is that is cut off. -/
lemma mapM {f f' : α → Except ε β} (h : ∀ a, CutsOff e (f a) (f' a)) (as : List α) :
    CutsOff e (as.mapM f) (as.mapM f') := by
  induction as with
  | nil => exact .same _
  | cons a as ih =>
    rw [List.mapM_cons, List.mapM_cons]
    exact (h a).bind fun b => ih.bind fun bs => .same _

end CutsOff

end Except
