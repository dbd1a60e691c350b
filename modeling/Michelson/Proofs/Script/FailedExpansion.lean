/-
# Scripts after a failed expansion

The sections of a script are rewritten where they stand, one after the other, and a fault does not
take back what has been replaced before it (`expand_keeps_what_it_replaced`).  Only a reference to
a tree that is no program is found out before anything is replaced.

The expansion can be taken up again.  The main statement is `expand_stops`: what is left has the
same full expansion as the script had, as long as the dictionary only gains references.
-/
import Michelson.Proofs.Constant.Stopping
import Michelson.Proofs.Script.Constants

namespace Michelson.Script

variable {dict dict' : Dictionary} {p q : Program} {fault : ShapeFault}

/-! ### Sections -/

/-- What is left of a program if its expansion stops in one of its sections.  The sections before
it are expanded and those behind it are as they were. -/
structure StopsIn (dict : Dictionary) (p q : Program) : Prop where
  raw_eq : q.raw = p.raw
  param_isSome : q.param.isSome = p.param.isSome
  storage_isSome : q.storage.isSome = p.storage.isSome
  code_isSome : q.code.isSome = p.code.isSome
  length_views : q.views.length = p.views.length
  kept : dict.StopsAmong (Expr.maxExpansion + 1) p.kept q.kept

lemma isSome_expandSection (held : Option Expr) (fault : Option ShapeFault) :
    (expandSection dict held fault).1.isSome = held.isSome := by
  cases held <;> cases fault <;> rfl

lemma length_expandSections (es : List Expr) (fault : Option ShapeFault) :
    (expandSections dict es fault).1.length = es.length := by
  induction es generalizing fault with
  | nil => cases fault <;> rfl
  | cons e es ih =>
    cases fault with
    | none => rw [expandSections_cons, List.length_cons, List.length_cons, ih]
    | some fault => rw [expandSections_some]

lemma fault_of_expandProgram (h : (expandProgram dict p).2 = some fault) :
    fault = .expansionTooDeep := by
  have hkept : (expandSections dict p.kept none).2 = some fault := by rw [expandSections_kept, h]
  rw [expandSections_eq_substituteAll] at hkept
  obtain ⟨e, -, hfault⟩ := Expr.exists_fault_of_substituteAll hkept
  obtain ⟨x, hx⟩ := Expr.exists_fault_of_substitute hfault
  exact Expr.fault_of_expandWithin hx

lemma stopsIn_expandProgram (h : (expandProgram dict p).2 = some fault) :
    StopsIn dict p (expandProgram dict p).1 where
  raw_eq := rfl
  param_isSome := isSome_expandSection _ _
  storage_isSome := isSome_expandSection _ _
  code_isSome := isSome_expandSection _ _
  length_views := length_expandSections _ _
  kept := by
    have hkept : expandSections dict p.kept none = _ := expandSections_kept p
    rw [expandSections_eq_substituteAll] at hkept
    have hfault := (congrArg Prod.snd hkept).trans h
    have hstops := Expr.stopsAmong_substituteAll (fun e _ he => Expr.stops_expandWithin he) hfault
    rwa [hkept] at hstops

/-- Where nothing fails, the sections get their full expansions. -/
lemma expandsAll_expandProgram (h : (expandProgram dict p).2 = none) :
    dict.ExpandsAll p.kept (expandProgram dict p).1.kept := by
  have hkept : (expandSections dict p.kept none).2 = none := by rw [expandSections_kept, h]
  obtain ⟨hall, hmap⟩ := expandSections_eq_map hkept
  rw [expandSections_kept] at hmap
  dsimp only at hmap
  rw [hmap]
  exact Expr.expandsAll_map fun e he => Expr.expands_expandWithin (hall e he)

/-! ### Scripts -/

lemma Denotes.isPlain (h : Denotes dict p q) (hle : dict.IsWithin dict')
    (hdict : ∀ hash x, NameMap.find? hash dict' = some x → dict'.IsPlain x)
    (hp : ∀ e ∈ p.kept, dict'.IsPlain e) : ∀ e ∈ q.kept, dict'.IsPlain e := by
  obtain ⟨rfl, -⟩ | ⟨raw, tree, -, hlookup, rfl, -⟩ := h
  · exact hp
  · have htree := Dictionary.isPlain_of_lookup? hdict (hle.lookup?_eq_some hlookup)
    exact fun e he => htree.of_mem_args (mem_args_of_mem_kept he)

/-- A failed expansion keeps the value in storage, and the whole script if it fails at a reference
to a tree that is no program.  Otherwise references nest too deep in some section: the sections
before it are expanded, those behind it are as they were, and it is itself expanded up to the
reference that has too many in front of it.  With a dictionary that has all references of the
first, and in which no reference names its hash by a reference, what is left has the full
expansions of what was there before, and these are what a later expansion gives if it goes
through. -/
theorem expand_stops (dict : Dictionary) (s s' : Script) (fault : ShapeFault)
    (hfault : s.expand dict = (s', some fault)) :
    s'.storage = s.storage ∧
      ((fault = .notAProgram ∧ s' = s ∧ ∃ raw tree, s.program.raw = some raw ∧
          dict.lookup? (wholeProgram raw) = some tree ∧ (Program.ofTree tree).isRaw) ∨
        (fault = .expansionTooDeep ∧ ∃ p, Denotes dict s.program p ∧
          StopsIn dict p s'.program ∧
          ∀ dict', dict.IsWithin dict' → (∀ e ∈ s.program.kept, dict'.IsPlain e) →
            (∀ hash x, NameMap.find? hash dict' = some x → dict'.IsPlain x) →
            (∀ trees, dict'.ExpandsAll s'.program.kept trees ↔ dict'.ExpandsAll p.kept trees) ∧
              ∀ s'', s'.expand dict' = (s'', none) →
                (∀ raw, p.raw = some raw → dict'.lookup? (wholeProgram raw) = none) →
                dict'.ExpandsAll p.kept s''.program.kept)) := by
  obtain ⟨raw, tree, hraw, hlookup, hisRaw, hexpand⟩ | ⟨p, hdenotes, hexpand⟩ :=
    expand_cases dict s
  · cases hexpand.symm.trans hfault
    exact ⟨rfl, .inl ⟨rfl, rfl, raw, tree, hraw, hlookup, hisRaw⟩⟩
  · obtain ⟨rfl, hdeep⟩ := Prod.mk.inj (hexpand.symm.trans hfault)
    have hstops := stopsIn_expandProgram hdeep
    refine ⟨rfl, .inr ⟨fault_of_expandProgram hdeep, p, hdenotes, hstops, ?_⟩⟩
    intro dict' hle hs hdict
    have hplain := hdenotes.isPlain hle hdict hs
    have hsame (trees : List Expr) :
        dict'.ExpandsAll (expandProgram dict p).1.kept trees ↔ dict'.ExpandsAll p.kept trees :=
      Dictionary.expandsAll_iff_of_sameUnder (hstops.kept.sameUnder hle hdict
        (fun e he _ htree => htree.sameUnder hle hdict (hplain e he)) hplain)
    refine ⟨hsame, fun s'' hok hraw => ?_⟩
    obtain ⟨q, hq, ⟨rfl, -⟩ | ⟨raw, tree, hqraw, hlookup, -, -⟩⟩ := expand_eq_ok hok
    · have hexpands := expandsAll_expandProgram (congrArg Prod.snd hq)
      rw [hq] at hexpands
      exact (hsame _).1 hexpands
    · cases (hraw raw hqraw).symm.trans hlookup

/-- Storage refers to `0`, and each reference to the next one up to `66`, a `nat`.  The expansion
stops at the reference `65`; taken up again with the same dictionary, it goes through. -/
theorem expand_stops_chain :
    let constant (hash : String) := Expr.apply1 .constant (.string hash)
    let program (parameter storage : Expr) := Expr.list [
      Expr.apply1 (.keyword .parameter) parameter, Expr.apply1 (.keyword .storage) storage,
      Expr.apply1 (.keyword .code) (.list [])]
    let script (parameter storage : Expr) : Script :=
      ⟨Program.ofTree (program parameter storage), .data0 .unit⟩
    let dict : Dictionary :=
      (List.range 66).map (fun i => (toString i, constant (toString (i + 1)))) ++
        [("66", .type0 .nat)]
    let s := script (constant "66") (constant "0")
    let s' := script (.type0 .nat) (constant "65")
    let s'' := script (.type0 .nat) (.type0 .nat)
    s.expand dict = (s', some .expansionTooDeep) ∧ StopsIn dict s.program s'.program ∧
      s'.expand dict = (s'', none) ∧ dict.ExpandsAll s.program.kept s''.program.kept := by
  intro constant program script dict s s' s''
  have hvalues : ∀ x ∈ dict.map Prod.snd, dict.IsPlain x := by decide +kernel
  have hdict : ∀ hash x, NameMap.find? hash dict = some x → dict.IsPlain x :=
    fun hash x hfind => hvalues x (List.mem_map_of_mem (NameMap.mem_of_find? hfind))
  have hs : ∀ e ∈ s.program.kept, dict.IsPlain e := by decide +kernel
  have hfault : s.expand dict = (s', some .expansionTooDeep) := by rfl
  have hok : s'.expand dict = (s'', none) := by rfl
  obtain ⟨-, ⟨hnot, -⟩ | ⟨-, p, hdenotes, hstops, hagain⟩⟩ :=
    expand_stops dict s s' .expansionTooDeep hfault
  · cases hnot
  · obtain ⟨rfl, -⟩ | ⟨raw, tree, hraw, -⟩ := hdenotes
    · obtain ⟨-, hresult⟩ := hagain dict (fun _ _ => id) hs hdict
      exact ⟨hfault, hstops, hok, hresult s'' hok nofun⟩
    · cases hraw

/-- The type of the parameter has been replaced when the type of storage turns out to be a reference
to itself.  A dictionary that corrects both references then comes too late for the parameter. -/
theorem expand_keeps_what_it_replaced :
    let constant (hash : String) := Expr.apply1 .constant (.string hash)
    let program (parameter storage : Expr) := Expr.list [
      Expr.apply1 (.keyword .parameter) parameter, Expr.apply1 (.keyword .storage) storage,
      Expr.apply1 (.keyword .code) (.list [])]
    let script (parameter storage : Expr) : Script :=
      ⟨Program.ofTree (program parameter storage), .data0 .unit⟩
    let dict : Dictionary := [("amount", .type0 .nat), ("loop", constant "loop")]
    let corrected : Dictionary := [("amount", .type0 .int), ("loop", .type0 .unit)]
    let s := script (constant "amount") (constant "loop")
    let s' := script (.type0 .nat) (constant "loop")
    s.expand dict = (s', some .expansionTooDeep) ∧ s' ≠ s ∧
      s.expand corrected = (script (.type0 .int) (.type0 .unit), none) ∧
      s'.expand corrected = (script (.type0 .nat) (.type0 .unit), none) := by
  intro constant program script dict corrected s s'
  have hne : s' ≠ s := by
    intro heq
    have hparam : some (.type0 .nat) = some (constant "amount") :=
      congrArg (fun script : Script => script.program.parameterType?) heq
    cases hparam
  exact ⟨rfl, hne, rfl, rfl⟩

end Michelson.Script
