/-
# The sections of a program

A program is built from a sequence section by section.  What one section does is said once, in
`addSection?_eq_some_iff`; everything about a whole sequence follows by induction on it.  The
sections that a program keeps are some of those it was built from, each under its own keyword, and
reading the kept sections again gives the same program.

The main statements are `ofTree_toTree`, `toTree_ofTree_eq_iff` and `isRaw_ofTree`: putting a
program together and taking it apart again changes nothing, the tree comes back as it was exactly
when it was kept whole or its sections were in order, and a tree that is kept whole has no sections.
-/
import Mathlib.Tactic
import Michelson.Proofs.Expr.Traversal
import Michelson.Script.Program

namespace Michelson.Program

variable {p q : Program} {e : Expr} {items : List Expr}

/-- A section has one keyword. -/
lemma not_applies_of_applies {k k' : SectionKeyword} (h : e.applies (.keyword k)) (hne : k ≠ k') :
    ¬ e.applies (.keyword k') := by
  rw [Expr.applies_iff] at h ⊢
  rw [h]
  simpa using hne

/-! ### One section -/

/-- What a section does to a program: it takes the place of the last section with its keyword, or
stands behind the views. -/
lemma addSection?_eq_some_iff :
    addSection? p e = some q ↔
      (e.applies (.keyword .parameter) ∧ q = { p with param := some e }) ∨
      (e.applies (.keyword .storage) ∧ q = { p with storage := some e }) ∨
      (e.applies (.keyword .code) ∧ q = { p with code := some e }) ∨
      (e.applies (.keyword .view) ∧ q = { p with views := p.views ++ [e] }) := by
  simp only [Expr.applies_iff]
  unfold addSection?
  split <;> simp_all [eq_comm]

/-- The section with a keyword that a program keeps, or the last of its views. -/
def last? (p : Program) : SectionKeyword → Option Expr
  | .parameter => p.param
  | .storage => p.storage
  | .code => p.code
  | .view => p.views.getLast?

lemma last?_of_addSection? (h : addSection? p e = some q) (k : SectionKeyword) :
    q.last? k = if e.applies (.keyword k) then some e else p.last? k := by
  rcases addSection?_eq_some_iff.1 h with ⟨he, rfl⟩ | ⟨he, rfl⟩ | ⟨he, rfl⟩ | ⟨he, rfl⟩ <;>
    cases k <;> simp_all [Expr.applies, last?]

/-- The sections that a program keeps, in the order in which they are written. -/
def kept (p : Program) : List Expr :=
  p.param.toList ++ p.storage.toList ++ p.code.toList ++ p.views

/-- Every section stands under its keyword, and no tree is kept whole. -/
structure IsSorted (p : Program) : Prop where
  param : ∀ e ∈ p.param, e.applies (.keyword .parameter)
  storage : ∀ e ∈ p.storage, e.applies (.keyword .storage)
  code : ∀ e ∈ p.code, e.applies (.keyword .code)
  views : ∀ e ∈ p.views, e.applies (.keyword .view)
  raw : p.raw = none

lemma isSorted_empty : empty.IsSorted := by
  constructor <;> simp [empty]

lemma IsSorted.step (hp : p.IsSorted) (h : addSection? p e = some q) : q.IsSorted := by
  obtain ⟨hparam, hstorage, hcode, hviews, hraw⟩ := hp
  rcases addSection?_eq_some_iff.1 h with ⟨he, rfl⟩ | ⟨he, rfl⟩ | ⟨he, rfl⟩ | ⟨he, rfl⟩
  · exact ⟨by simpa using he, hstorage, hcode, hviews, hraw⟩
  · exact ⟨hparam, by simpa using he, hcode, hviews, hraw⟩
  · exact ⟨hparam, hstorage, by simpa using he, hviews, hraw⟩
  · refine ⟨hparam, hstorage, hcode, fun a ha => ?_, hraw⟩
    rcases List.mem_append.1 ha with ha | ha
    · exact hviews a ha
    · rwa [List.mem_singleton.1 ha]

/-- A new section in the place of an old one, or in an empty place, adds no other section. -/
lemma subperm_of_replace (before old after : List Expr) (e : Expr) :
    (before ++ [e] ++ after).Subperm (before ++ old ++ after ++ [e]) := by
  have hperm : (before ++ [e] ++ after).Perm (before ++ after ++ [e]) := by
    rw [List.append_assoc, List.append_assoc]
    exact List.Perm.append_left before List.perm_append_comm
  have hsub : (before ++ after ++ [e]).Sublist (before ++ old ++ after ++ [e]) := by
    refine List.Sublist.append_right (List.Sublist.append_right ?_ after) [e]
    exact List.sublist_append_left before old
  exact hperm.subperm.trans hsub.subperm

/-- A step keeps no section but those of before and the new one. -/
lemma kept_subperm_of_addSection? (h : addSection? p e = some q) :
    q.kept.Subperm (p.kept ++ [e]) := by
  -- a section with one of the first three keywords may take the place of an older one
  rcases addSection?_eq_some_iff.1 h with ⟨-, rfl⟩ | ⟨-, rfl⟩ | ⟨-, rfl⟩ | ⟨-, rfl⟩
  · have hsub := subperm_of_replace [] p.param.toList (p.storage.toList ++ p.code.toList ++ p.views) e
    simpa [kept] using hsub
  · have hsub := subperm_of_replace p.param.toList p.storage.toList (p.code.toList ++ p.views) e
    simpa [kept] using hsub
  · have hsub := subperm_of_replace (p.param.toList ++ p.storage.toList) p.code.toList p.views e
    simpa [kept] using hsub
  · simpa [kept] using List.Subperm.refl (p.kept ++ [e])

/-! ### A whole sequence -/

lemma foldlM_cons_eq_some_iff :
    (e :: items).foldlM addSection? p = some q ↔
      ∃ mid, addSection? p e = some mid ∧ items.foldlM addSection? mid = some q := by
  rw [List.foldlM_cons]
  exact Option.bind_eq_some_iff

lemma IsSorted.foldlM (hp : p.IsSorted) (h : items.foldlM addSection? p = some q) : q.IsSorted := by
  induction items generalizing p with
  | nil =>
    obtain rfl : p = q := by simpa using h
    exact hp
  | cons e items ih =>
    obtain ⟨mid, hstep, hrest⟩ := foldlM_cons_eq_some_iff.1 h
    exact ih (hp.step hstep) hrest

lemma kept_subperm_of_foldlM (h : items.foldlM addSection? p = some q) :
    q.kept.Subperm (p.kept ++ items) := by
  induction items generalizing p with
  | nil =>
    obtain rfl : p = q := by simpa using h
    simpa using List.Subperm.refl p.kept
  | cons e items ih =>
    obtain ⟨mid, hstep, hrest⟩ := foldlM_cons_eq_some_iff.1 h
    have htail : (mid.kept ++ items).Subperm (p.kept ++ [e] ++ items) :=
      (List.subperm_append_right items).2 (kept_subperm_of_addSection? hstep)
    rw [List.append_assoc, List.singleton_append] at htail
    exact (ih hrest).trans htail

/-- Of several sections with a keyword the last one counts. -/
lemma last?_of_foldlM (h : items.foldlM addSection? p = some q) (k : SectionKeyword) :
    q.last? k = (items.filter fun e => e.applies (.keyword k)).getLast?.or (p.last? k) := by
  induction items generalizing p with
  | nil =>
    obtain rfl : p = q := by simpa using h
    simp
  | cons e items ih =>
    obtain ⟨mid, hstep, hrest⟩ := foldlM_cons_eq_some_iff.1 h
    rw [ih hrest, last?_of_addSection? hstep, List.filter_cons]
    by_cases he : e.applies (.keyword k)
    · -- the new section counts unless a later one does
      rw [if_pos he, if_pos he, List.getLast?_cons]
      cases (items.filter fun e => e.applies (.keyword k)).getLast? <;> rfl
    · rw [if_neg he, if_neg he]

/-- A section that may be missing. -/
lemma foldlM_toList {held : Option Expr} (hnone : held = none → p = q)
    (hsome : ∀ e ∈ held, addSection? p e = some q) :
    held.toList.foldlM addSection? p = some q := by
  cases held with
  | none => exact congrArg some (hnone rfl)
  | some e => exact foldlM_cons_eq_some_iff.2 ⟨q, hsome e rfl, rfl⟩

lemma foldlM_views {views : List Expr} (h : ∀ e ∈ views, e.applies (.keyword .view)) :
    views.foldlM addSection? p = some { p with views := p.views ++ views } := by
  induction views generalizing p with
  | nil => simp
  | cons e views ih =>
    have hstep : addSection? p e = some { p with views := p.views ++ [e] } :=
      addSection?_eq_some_iff.2 (.inr (.inr (.inr ⟨h e List.mem_cons_self, rfl⟩)))
    refine foldlM_cons_eq_some_iff.2 ⟨_, hstep, ?_⟩
    rw [ih fun a ha => h a (List.mem_cons_of_mem e ha)]
    simp

/-- The sections that a program keeps are enough to build it. -/
lemma IsSorted.foldlM_kept (hp : p.IsSorted) : p.kept.foldlM addSection? empty = some p := by
  obtain ⟨param, storage, code, views, raw⟩ := p
  obtain ⟨hparam, hstorage, hcode, hviews, rfl⟩ := hp
  -- place by place, in the order in which the sections are written
  have h1 : param.toList.foldlM addSection? empty = some { empty with param } := by
    refine foldlM_toList (fun h => by rw [h]; rfl) fun e he => ?_
    exact addSection?_eq_some_iff.2 (.inl ⟨hparam e he, by rw [he]⟩)
  have h2 : storage.toList.foldlM addSection? { empty with param } =
      some { empty with param, storage } := by
    refine foldlM_toList (fun h => by rw [h]; rfl) fun e he => ?_
    exact addSection?_eq_some_iff.2 (.inr (.inl ⟨hstorage e he, by rw [he]⟩))
  have h3 : code.toList.foldlM addSection? { empty with param, storage } =
      some { empty with param, storage, code } := by
    refine foldlM_toList (fun h => by rw [h]; rfl) fun e he => ?_
    exact addSection?_eq_some_iff.2 (.inr (.inr (.inl ⟨hcode e he, by rw [he]⟩)))
  rw [kept, List.foldlM_append, List.foldlM_append, List.foldlM_append, h1]
  simp only [Option.bind_eq_bind, Option.bind_some, h2, h3]
  exact foldlM_views hviews

/-- Sections in their order: a parameter, a storage and a code section, each at most once, and
views behind them. -/
def InOrder (items : List Expr) : Prop :=
  ∃ param storage code : Option Expr, ∃ views : List Expr,
    items = param.toList ++ storage.toList ++ code.toList ++ views ∧
      (∀ e ∈ param, e.applies (.keyword .parameter)) ∧
      (∀ e ∈ storage, e.applies (.keyword .storage)) ∧
      (∀ e ∈ code, e.applies (.keyword .code)) ∧
      ∀ e ∈ views, e.applies (.keyword .view)

lemma inOrder_iff : InOrder items ↔ ∃ p : Program, p.IsSorted ∧ p.kept = items := by
  constructor
  · rintro ⟨param, storage, code, views, rfl, hparam, hstorage, hcode, hviews⟩
    exact ⟨⟨param, storage, code, views, none⟩, ⟨hparam, hstorage, hcode, hviews, rfl⟩, rfl⟩
  · rintro ⟨p, hp, rfl⟩
    exact ⟨p.param, p.storage, p.code, p.views, rfl, hp.param, hp.storage, hp.code, hp.views⟩

/-- The sections of a sequence are all kept in their order exactly when they were in order. -/
lemma kept_eq_iff (h : items.foldlM addSection? empty = some p) :
    p.kept = items ↔ InOrder items := by
  rw [inOrder_iff]
  constructor
  · intro hkept
    exact ⟨p, isSorted_empty.foldlM h, hkept⟩
  · rintro ⟨q, hq, rfl⟩
    rw [hq.foldlM_kept] at h
    rw [Option.some.inj h]

/-! ### Trees -/

variable {root : Expr}

lemma ofTree_seq (h : items.foldlM addSection? empty = some p) (u : Bool) :
    ofTree (.seq items u) = p := by
  rw [ofTree, h]
  rfl

/-- A tree is either a sequence that can be taken apart or kept whole. -/
lemma ofTree_cases (root : Expr) :
    (∃ items u, root = .seq items u ∧ items.foldlM addSection? empty = some (ofTree root)) ∨
      ofTree root = ofRaw root := by
  cases root with
  | literal l u => exact .inr rfl
  | app prim args annots w u => exact .inr rfl
  | seq items u =>
    cases h : items.foldlM addSection? empty with
    | none => exact .inr (by rw [ofTree, h]; rfl)
    | some p => exact .inl ⟨items, u, rfl, by rw [h, ofTree_seq h]⟩

lemma toTree_ofRaw (root : Expr) : (ofRaw root).toTree = root := rfl

lemma IsSorted.toTree_eq (hp : p.IsSorted) : p.toTree = .list p.kept := by
  rw [toTree, hp.raw, kept]

/-- Taking a program apart again gives the same program. -/
lemma ofTree_toTree (root : Expr) : ofTree (ofTree root).toTree = ofTree root := by
  rcases ofTree_cases root with ⟨items, u, -, h⟩ | hraw
  · have hsorted := isSorted_empty.foldlM h
    rw [hsorted.toTree_eq]
    exact ofTree_seq hsorted.foldlM_kept false
  · rw [hraw, toTree_ofRaw, hraw]

/-- A tree comes back as it was exactly when it was kept whole or its sections were in order. -/
lemma toTree_ofTree_eq_iff (h : root.isUnpacked = false) :
    (ofTree root).toTree = root ↔ (ofTree root).isRaw ∨ InOrder root.args := by
  rcases ofTree_cases root with ⟨items, u, rfl, hfold⟩ | hraw
  · obtain rfl : u = false := h
    have hsorted := isSorted_empty.foldlM hfold
    have hnotRaw : ¬ (ofTree (.seq items false)).isRaw := by simp [isRaw, hsorted.raw]
    rw [hsorted.toTree_eq, Expr.list, Expr.args, ← kept_eq_iff hfold]
    simp [hnotRaw]
  · rw [hraw, toTree_ofRaw]
    simp [ofRaw, isRaw]

/-- What a program that is taken apart has under a keyword is the last section with it. -/
lemma last?_ofTree (h : ¬ (ofTree (.list items)).isRaw) (k : SectionKeyword) :
    (ofTree (.list items)).last? k =
      (items.filter fun e => e.applies (.keyword k)).getLast? := by
  rcases ofTree_cases (.list items) with ⟨items', u, hlist, hfold⟩ | hraw
  · obtain ⟨rfl, rfl⟩ := Expr.seq.inj hlist
    have hempty : empty.last? k = none := by cases k <;> rfl
    rw [last?_of_foldlM hfold, hempty, Option.or_none]
  · rw [hraw] at h
    exact absurd rfl h

/-- A tree that is kept whole leaves no section behind. -/
lemma isRaw_ofTree (h : (ofTree root).isRaw) :
    (ofTree root).param = none ∧ (ofTree root).storage = none ∧ (ofTree root).code = none ∧
      (ofTree root).views = [] := by
  rcases ofTree_cases root with ⟨items, u, -, hfold⟩ | hraw
  · rw [isRaw, (isSorted_empty.foldlM hfold).raw] at h
    cases h
  · rw [hraw]
    exact ⟨rfl, rfl, rfl, rfl⟩

end Michelson.Program
