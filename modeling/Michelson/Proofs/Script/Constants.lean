/-
# The global constants of a script

Expanding a script expands its sections one after the other (`expandSections_kept`), so no section
refers to a known constant afterwards.  A program that is one reference gives way to the sections
of the program behind it.  But a tree that was kept whole and is no reference is not looked into:
the references in it stay, although the script lists them with the others.

The main statement is `references_expand_iff`: what is left is known exactly in such a tree.
-/
import Michelson.Proofs.Constant.Expansion
import Michelson.Proofs.Script.Sections
import Michelson.Script

namespace Michelson

variable {dict : Dictionary} {e : Expr}

namespace Expr

/-- The references of a tree by its nodes. -/
lemma forall_references_iff :
    (∀ hash ∈ e.references, NameMap.find? hash dict = none) ↔
      ∀ n ∈ e.nodes, dict.lookup? n = none := by
  constructor
  · intro h n hn
    cases href : n.reference? with
    | none => rw [Dictionary.lookup?, href, Option.bind_none]
    | some hash =>
      rw [Dictionary.lookup?, href, Option.bind_some]
      exact h hash (List.mem_filterMap.2 ⟨n, hn, href⟩)
  · intro h hash hhash
    obtain ⟨n, hn, href⟩ := List.mem_filterMap.1 hhash
    have hlookup := h n hn
    rwa [Dictionary.lookup?, href, Option.bind_some] at hlookup

end Expr

namespace Script

variable {s s' : Script} {p : Program} {es : List Expr}

/-! ### Sections -/

lemma expandSections_some (es : List Expr) (fault : ShapeFault) :
    expandSections dict es (some fault) = (es, some fault) := by
  cases es <;> rfl

lemma expandSections_cons (e : Expr) (es : List Expr) :
    expandSections dict (e :: es) none =
      ((e.expand dict).1 :: (expandSections dict es (e.expand dict).2).1,
        (expandSections dict es (e.expand dict).2).2) :=
  rfl

lemma expandSections_append (es es' : List Expr) (fault : Option ShapeFault) :
    expandSections dict (es ++ es') fault =
      ((expandSections dict es fault).1 ++
          (expandSections dict es' (expandSections dict es fault).2).1,
        (expandSections dict es' (expandSections dict es fault).2).2) := by
  induction es generalizing fault with
  | nil => cases fault <;> rfl
  | cons e es ih =>
    cases fault with
    | some fault => simp only [expandSections_some]
    | none => rw [List.cons_append, expandSections_cons, expandSections_cons, ih, List.cons_append]

/-- A section that may be missing is expanded as a list of at most one section. -/
lemma expandSections_toList (held : Option Expr) (fault : Option ShapeFault) :
    expandSections dict held.toList fault =
      ((expandSection dict held fault).1.toList, (expandSection dict held fault).2) := by
  cases held with
  | none => cases fault <;> rfl
  | some e =>
    cases fault with
    | some fault => rfl
    | none =>
      rw [Option.toList_some, expandSections_cons]
      cases hfault : (e.expand dict).2 <;> simp [expandSection, expandSections, hfault]

/-- The sections that a program keeps are expanded in the order in which they are written. -/
lemma expandSections_kept (p : Program) :
    expandSections dict p.kept none =
      ((expandProgram dict p).1.kept, (expandProgram dict p).2) := by
  simp only [Program.kept, expandSections_append, expandSections_toList]
  rfl

/-- Sections are expanded as the parts of one tree would be. -/
lemma expandSections_eq_substituteAll (es : List Expr) :
    expandSections dict es none =
      Expr.substituteAll dict.lookup? (Expr.expandWithin dict Expr.maxExpansion) es := by
  induction es with
  | nil => rfl
  | cons e es ih =>
    rw [expandSections_cons]
    cases hfault : (e.expand dict).2 with
    | none =>
      rw [ih]
      exact (Expr.substituteAll_cons_of_eq_none hfault).symm
    | some fault =>
      rw [expandSections_some]
      exact (Expr.substituteAll_cons_of_eq_some hfault).symm

/-- Where nothing fails, each section is expanded. -/
lemma expandSections_eq_map (h : (expandSections dict es none).2 = none) :
    (∀ e ∈ es, (e.expand dict).2 = none) ∧
      (expandSections dict es none).1 = es.map fun e => (e.expand dict).1 := by
  rw [expandSections_eq_substituteAll] at h ⊢
  exact ⟨Expr.substituteAll_eq_none_iff.1 h, Expr.substituteAll_eq_map h⟩

lemma mem_sections_iff : e ∈ p.sections ↔ e ∈ p.kept ∨ p.raw = some e := by
  simp only [Program.sections, Program.kept, List.mem_append, Option.mem_toList]
  tauto

/-- Once its sections are expanded, a program refers to a known constant only in a tree that is
kept whole. -/
lemma references_expandProgram_iff
    (hdict : ∀ hash x, NameMap.find? hash dict = some x → dict.IsPlain x)
    (hp : ∀ e ∈ p.kept, dict.IsPlain e) (hok : (expandProgram dict p).2 = none) :
    (∀ e ∈ (expandProgram dict p).1.sections, ∀ hash ∈ e.references,
        NameMap.find? hash dict = none) ↔
      ∀ raw, p.raw = some raw → ∀ hash ∈ raw.references, NameMap.find? hash dict = none := by
  have hkeptOk : (expandSections dict p.kept none).2 = none := by
    rw [expandSections_kept]
    exact hok
  obtain ⟨hall, hmap⟩ := expandSections_eq_map hkeptOk
  rw [expandSections_kept] at hmap
  dsimp only at hmap
  constructor
  · intro h raw hraw
    exact h raw (mem_sections_iff.2 (.inr hraw))
  · intro h e he
    rcases mem_sections_iff.1 he with hkept | hraw
    · rw [hmap] at hkept
      obtain ⟨a, ha, rfl⟩ := List.mem_map.1 hkept
      exact Expr.forall_references_iff.2
        (Expr.lookup?_expand_eq_none hdict (hp a ha) (hall a ha))
    · exact h e hraw

/-! ### Programs behind a reference -/

/-- The sections of a tree are parts of it. -/
lemma mem_args_of_mem_kept {root : Expr} (h : e ∈ (Program.ofTree root).kept) : e ∈ root.args := by
  rcases Program.ofTree_cases root with ⟨items, u, rfl, hfold⟩ | hraw
  · exact (Program.kept_subperm_of_foldlM hfold).subset h
  · rw [hraw] at h
    exact absurd h List.not_mem_nil

/-- The program whose sections are expanded in the place of a program: the program itself or, where
this is one known reference, the program behind the reference. -/
def Denotes (dict : Dictionary) (p q : Program) : Prop :=
  (q = p ∧ ∀ raw, p.raw = some raw → dict.lookup? (wholeProgram raw) = none) ∨
    ∃ raw tree, p.raw = some raw ∧ dict.lookup? (wholeProgram raw) = some tree ∧
      q = Program.ofTree tree ∧ q.raw = none

/-- A script is expanded by expanding the program that its program denotes; a reference to a tree
that is no program changes nothing. -/
lemma expand_cases (dict : Dictionary) (s : Script) :
    (∃ raw tree, s.program.raw = some raw ∧ dict.lookup? (wholeProgram raw) = some tree ∧
        (Program.ofTree tree).isRaw ∧ s.expand dict = (s, some .notAProgram)) ∨
      ∃ p, Denotes dict s.program p ∧ s.expand dict =
        ({ s with program := (expandProgram dict p).1 }, (expandProgram dict p).2) := by
  cases hwhole : s.program.raw.bind fun tree => dict.lookup? (wholeProgram tree) with
  | none =>
    refine .inr ⟨s.program, .inl ⟨rfl, Option.bind_eq_none_iff.1 hwhole⟩, ?_⟩
    rw [expand, hwhole]
  | some tree =>
    obtain ⟨raw, hraw, hlookup⟩ := Option.bind_eq_some_iff.1 hwhole
    cases hp : (Program.ofTree tree).raw with
    | some other =>
      have hisRaw : (Program.ofTree tree).isRaw := by rw [Program.isRaw, hp]; rfl
      refine .inl ⟨raw, tree, hraw, hlookup, hisRaw, ?_⟩
      simp only [expand, hwhole, hisRaw, if_true]
    | none =>
      refine .inr ⟨_, .inr ⟨raw, tree, hraw, hlookup, rfl, hp⟩, ?_⟩
      simp only [expand, hwhole, Program.isRaw, hp]
      rfl

lemma expand_eq_ok (h : s.expand dict = (s', none)) :
    ∃ p, expandProgram dict p = (s'.program, none) ∧ Denotes dict s.program p := by
  obtain ⟨raw, tree, -, -, -, hexpand⟩ | ⟨p, hdenotes, hexpand⟩ := expand_cases dict s
  · cases hexpand.symm.trans h
  · obtain ⟨rfl, hfault⟩ := Prod.mk.inj (hexpand.symm.trans h)
    exact ⟨p, Prod.ext rfl hfault, hdenotes⟩

/-- After an expansion that goes through, a script refers to a known constant exactly if its program
was kept whole, is no known reference and does so itself. -/
theorem references_expand_iff (dict : Dictionary) (s s' : Script)
    (hs : ∀ e ∈ s.program.kept, dict.IsPlain e)
    (hdict : ∀ hash x, NameMap.find? hash dict = some x → dict.IsPlain x)
    (hok : s.expand dict = (s', none)) :
    (∀ hash ∈ s'.references, NameMap.find? hash dict = none) ↔
      ∀ raw, s.program.raw = some raw → dict.lookup? (wholeProgram raw) = none →
        ∀ hash ∈ raw.references, NameMap.find? hash dict = none := by
  obtain ⟨p, hp, ⟨rfl, hnone⟩ | ⟨raw, tree, hraw, hlookup, rfl, hsections⟩⟩ := expand_eq_ok hok
  · have hiff := references_expandProgram_iff hdict hs (by rw [hp])
    rw [hp] at hiff
    rw [references, List.forall_mem_flatMap, hiff]
    refine forall₂_congr fun raw hraw => ?_
    rw [hnone raw hraw, forall_prop_of_true rfl]
  · have hkept : ∀ e ∈ (Program.ofTree tree).kept, dict.IsPlain e := by
      intro e he
      obtain ⟨hash, -, hfind⟩ := Option.bind_eq_some_iff.1 hlookup
      exact (hdict hash tree hfind).of_mem_args (mem_args_of_mem_kept he)
    have hiff := references_expandProgram_iff hdict hkept (by rw [hp])
    rw [hp, hsections] at hiff
    rw [references, List.forall_mem_flatMap]
    refine iff_of_true (hiff.2 nofun) fun raw' hraw' hunknown => ?_
    rw [hraw] at hraw'
    cases hraw'
    rw [hlookup] at hunknown
    cases hunknown

/-- A program that is one reference, to a program with a reference to a pair of references of which
one is known. -/
theorem references_expand_iff_nested :
    let constant (hash : String) := Expr.apply1 .constant (.string hash)
    let keyword (k : SectionKeyword) (type : Expr) := Expr.apply1 (.keyword k) type
    let program (type : Expr) := Expr.list [keyword .parameter (.type0 .unit),
      keyword .storage type, keyword .code (.list [])]
    let dict : Dictionary := [("main", program (constant "state")),
      ("state", .type2 .pair (constant "amount") (constant "owner")), ("amount", .type0 .nat)]
    let s : Script := ⟨Program.ofTree (constant "main"), .data0 .unit⟩
    let s' : Script :=
      ⟨Program.ofTree (program (.type2 .pair (.type0 .nat) (constant "owner"))), .data0 .unit⟩
    (∀ e ∈ s.program.kept, dict.IsPlain e) ∧
      (∀ hash x, NameMap.find? hash dict = some x → dict.IsPlain x) ∧
      s.expand dict = (s', none) ∧ s'.references = ["owner"] ∧
      ∀ hash ∈ s'.references, NameMap.find? hash dict = none := by
  intro constant keyword program dict s s'
  have hvalues : ∀ x ∈ dict.map Prod.snd, dict.IsPlain x := by decide +kernel
  have hdict : ∀ hash x, NameMap.find? hash dict = some x → dict.IsPlain x :=
    fun hash x hfind => hvalues x (List.mem_map_of_mem (NameMap.mem_of_find? hfind))
  have hs : ∀ e ∈ s.program.kept, dict.IsPlain e := by decide +kernel
  have hok : s.expand dict = (s', none) := by rfl
  refine ⟨hs, hdict, hok, by rfl, ?_⟩
  refine (references_expand_iff dict s s' hs hdict hok).2 fun raw hraw hunknown => ?_
  cases hraw
  cases hunknown

/-- A program that is a sequence with a reference in it, but no sequence of sections: the expansion
goes through and changes nothing. -/
theorem expand_leaves_known_reference :
    let dict : Dictionary := [("amount", .type0 .nat)]
    let s : Script := ⟨Program.ofTree
      (.list [.apply1 .constant (.string "amount"), .type0 .unit]), .data0 .unit⟩
    s.expand dict = (s, none) ∧ "amount" ∈ s.references ∧
      NameMap.find? "amount" dict = some (.type0 .nat) := by
  intro dict s
  have href : s.references = ["amount"] := by rfl
  exact ⟨rfl, by rw [href]; exact List.mem_cons_self, rfl⟩

end Script

end Michelson
