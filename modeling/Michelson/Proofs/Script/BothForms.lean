/-
# Scripts in bytes and in JSON

Both forms of a script are made of two trees, and a tree read back from either form is the same
tree, though not always the one that was written.  What has to be shown is that this change of the
trees does not disturb the sections.  Taking a program apart looks only at whether a tree is a
sequence and at the primitives of its items; a rewriting of trees that keeps both can as well be
done to the sections afterwards (`ofTree_map`).  Reading bytes and reading JSON are two of them.

The main statement is `same_of_read_back`: a script comes back from both its forms as the same
script, so the scripts that are read from the two forms are the same.
-/
import Michelson.Proofs.Expr.Document
import Michelson.Proofs.Expr.Same
import Michelson.Proofs.Json.Record
import Michelson.Proofs.Script.RoundTrip

namespace Michelson

/-! ### Programs with rewritten trees -/

/-- A rewriting of trees that keeps what a program is taken apart by. -/
structure KeepsSections (f : Expr → Expr) : Prop where
  prim? : ∀ e, (f e).prim? = e.prim?
  isSequence : ∀ e, (f e).isSequence = e.isSequence
  items : ∀ items u, ∃ u', f (.seq items u) = .seq (items.map f) u'

lemma keepsSections_normal : KeepsSections Expr.normal where
  prim? e := by cases e <;> rfl
  isSequence e := by cases e <;> rfl
  items items u := ⟨false, by rw [Expr.normal, Expr.normalAll_eq_map]⟩

lemma keepsSections_canonical : KeepsSections Expr.canonical where
  prim? e := by cases e <;> rfl
  isSequence e := by cases e <;> rfl
  items items u := ⟨false, by rw [Expr.canonical, Expr.canonicalAll_eq_map]⟩

namespace Program

variable {f : Expr → Expr} {p q : Program}

/-- The program with `f` applied to each of its trees. -/
def mapTrees (f : Expr → Expr) (p : Program) : Program :=
  ⟨p.param.map f, p.storage.map f, p.code.map f, p.views.map f, p.raw.map f⟩

lemma mapTrees_empty (f : Expr → Expr) : empty.mapTrees f = empty := rfl

lemma addSection?_map (hf : KeepsSections f) (p : Program) (e : Expr) :
    addSection? (p.mapTrees f) (f e) = (addSection? p e).map (mapTrees f) := by
  unfold addSection?
  rw [hf.prim?]
  split
  · rfl
  · rfl
  · rfl
  · simp [mapTrees]
  · rfl

lemma foldlM_addSection?_map (hf : KeepsSections f) (items : List Expr) (p : Program) :
    (items.map f).foldlM addSection? (p.mapTrees f) =
      (items.foldlM addSection? p).map (mapTrees f) := by
  induction items generalizing p with
  | nil => rfl
  | cons e items ih =>
    rw [List.map_cons, List.foldlM_cons, List.foldlM_cons, addSection?_map hf]
    cases addSection? p e with
    | none => rfl
    | some mid => exact ih mid

/-- Rewriting a tree and taking it apart is taking it apart and rewriting the sections. -/
lemma ofTree_map (hf : KeepsSections f) (root : Expr) :
    ofTree (f root) = (ofTree root).mapTrees f := by
  have hwhole : ∀ e : Expr, e.isSequence = false → ofTree e = ofRaw e := by
    intro e he
    cases e with
    | seq items u => cases he
    | literal l u => rfl
    | app prim args annots w u => rfl
  cases root with
  | seq items u =>
    obtain ⟨u', hitems⟩ := hf.items items u
    rw [hitems, ofTree, ← mapTrees_empty f, foldlM_addSection?_map hf, ofTree]
    cases items.foldlM addSection? empty with
    | none => rw [Option.map_none, Option.getD_none, Option.getD_none, ← hitems]; rfl
    | some p => rfl
  | literal l u =>
    rw [hwhole _ (hf.isSequence _)]
    rfl
  | app prim args annots w u =>
    rw [hwhole _ (hf.isSequence _)]
    rfl

/-- What is read when a program is written and its tree comes back rewritten. -/
lemma ofTree_map_toTree (hf : KeepsSections f) (root : Expr) :
    ofTree (f (ofTree root).toTree) = (ofTree root).mapTrees f := by
  rw [ofTree_map hf, ofTree_toTree]

/-! ### The same program -/

/-- Two programs are the same when they have the same trees in the same places. -/
structure Same (p q : Program) : Prop where
  param : Option.Rel (fun a b => a.same b) p.param q.param
  storage : Option.Rel (fun a b => a.same b) p.storage q.storage
  code : Option.Rel (fun a b => a.same b) p.code q.code
  views : List.Forall₂ (fun a b => a.same b) p.views q.views
  raw : Option.Rel (fun a b => a.same b) p.raw q.raw

lemma rel_same_iff {a b : Option Expr} :
    Option.Rel (fun a b => a.same b) a b ↔ a.map Expr.canonical = b.map Expr.canonical := by
  cases a <;> cases b <;> simp [Expr.same_iff_canonical_eq]

lemma forall₂_same_iff {es es' : List Expr} :
    List.Forall₂ (fun a b => a.same b) es es' ↔
      es.map Expr.canonical = es'.map Expr.canonical := by
  simp only [Expr.same_iff_canonical_eq]
  rw [← List.forall₂_eq_eq_eq, List.forall₂_map_left_iff, List.forall₂_map_right_iff]

lemma same_iff : p.Same q ↔ p.mapTrees Expr.canonical = q.mapTrees Expr.canonical := by
  rw [mapTrees, mapTrees, Program.mk.injEq, ← rel_same_iff, ← rel_same_iff, ← rel_same_iff,
    ← rel_same_iff, ← forall₂_same_iff]
  constructor
  · rintro ⟨hparam, hstorage, hcode, hviews, hraw⟩
    exact ⟨hparam, hstorage, hcode, hviews, hraw⟩
  · rintro ⟨hparam, hstorage, hcode, hviews, hraw⟩
    exact ⟨hparam, hstorage, hcode, hviews, hraw⟩

/-- Trees that are rewritten without a change of their canonical forms leave the program the same.
-/
lemma same_mapTrees (hf : ∀ e, (f e).canonical = e.canonical) (p : Program) :
    (p.mapTrees f).Same p := by
  have hcomp : Expr.canonical ∘ f = Expr.canonical := funext hf
  simp [same_iff, mapTrees, hcomp]

/-! ### The tree of a program -/

/-- The sections that a program keeps are parts of the tree that was taken apart. -/
lemma toTree_ofTree_cases (root : Expr) :
    (ofTree root).toTree = root ∨
      ∃ kept, (ofTree root).toTree = .list kept ∧ ∀ e ∈ kept, e ∈ root.args := by
  rcases ofTree_cases root with ⟨items, u, rfl, hfold⟩ | hraw
  · exact .inr ⟨_, (isSorted_empty.foldlM hfold).toTree_eq,
      fun e he => (kept_subperm_of_foldlM hfold).subset he⟩
  · exact .inl (by rw [hraw, toTree_ofRaw])

lemma height_toTree_le {root : Expr} {limit : Nat} (h : root.height ≤ limit) :
    (ofTree root).toTree.height ≤ limit := by
  rcases toTree_ofTree_cases root with hroot | ⟨kept, hkept, hargs⟩
  · rwa [hroot]
  · rw [hkept]
    exact Expr.height_le_iff.2 fun e he => Expr.height_le_iff.1 h e (hargs e he)

lemma isWellAnnotated_toTree {root : Expr} (h : root.IsWellAnnotated) :
    (ofTree root).toTree.IsWellAnnotated := by
  rcases toTree_ofTree_cases root with hroot | ⟨kept, hkept, hargs⟩
  · rwa [hroot]
  · rw [hkept, Expr.isWellAnnotated_iff]
    exact ⟨by simp [Expr.list, Expr.annots, AreAnnots],
      fun e he => (Expr.isWellAnnotated_iff.1 h).2 e (hargs e he)⟩

end Program

/-! ### Writing and reading trees -/

/-- A tree whose lengths fit their words, its own included. -/
structure Expr.HasShortSpelling (e : Expr) : Prop where
  payloads : e.HasShortPayloads
  short : e.spelling.IsShort

lemma Expr.encodeBlock_encode_eq_ok_iff {e : Expr} {b : Bytes} (h : e.IsWellAnnotated) :
    (e.encode >>= encodeBlock) = .ok b ↔ e.HasShortSpelling ∧ b = e.spelling.sized := by
  constructor
  · intro hb
    obtain ⟨c, hc, hb⟩ := Except.bind_eq_ok_iff.1 hb
    obtain ⟨hspellable, rfl⟩ := encode_eq_ok_iff.1 hc
    have hshort := isShort_of_encodeBlock hb
    rw [encodeBlock_of_isShort hshort, Except.ok.injEq] at hb
    exact ⟨⟨hspellable.payloads, hshort⟩, hb.symm⟩
  · rintro ⟨⟨hpayloads, hshort⟩, rfl⟩
    rw [encode_of_isSpellable ⟨h, hpayloads⟩, Except.ok_bind, encodeBlock_of_isShort hshort]

/-- The normal form of a tree is read out of the frame of the tree. -/
lemma Expr.fitsFrame_normal {e : Expr} (hannots : e.IsWellAnnotated) (hshort : e.HasShortSpelling)
    (hheight : e.height ≤ defaultLimit) :
    e.spelling = e.normal.spelling ∧ e.normal.FitsFrame := by
  have hread := decode_spelling ⟨hannots, hshort.payloads⟩ defaultLimit
  rw [if_pos hheight] at hread
  exact fitsFrame_iff.2 ⟨hshort.short, hread⟩

/-! ### Scripts -/

namespace Script

variable {s s' s'' : Script} {levels : Nat}

/-- The script with `f` applied to each of its trees. -/
def mapTrees (f : Expr → Expr) (s : Script) : Script := ⟨s.program.mapTrees f, f s.storage⟩

/-- Two scripts are the same when their programs and the values of storage are. -/
structure Same (s s' : Script) : Prop where
  program : s.program.Same s'.program
  storage : s.storage.same s'.storage

lemma same_iff : s.Same s' ↔ s.mapTrees Expr.canonical = s'.mapTrees Expr.canonical := by
  rw [mapTrees, mapTrees, Script.mk.injEq, ← Program.same_iff, ← Expr.same_iff_canonical_eq]
  exact ⟨fun h => ⟨h.program, h.storage⟩, fun h => ⟨h.1, h.2⟩⟩

lemma Same.symm (h : s.Same s') : s'.Same s := same_iff.2 (same_iff.1 h).symm

lemma Same.trans (h : s.Same s') (h' : s'.Same s'') : s.Same s'' :=
  same_iff.2 ((same_iff.1 h).trans (same_iff.1 h'))

lemma same_mapTrees {f : Expr → Expr} (hf : ∀ e, (f e).canonical = e.canonical) (s : Script) :
    (s.mapTrees f).Same s :=
  ⟨Program.same_mapTrees hf s.program, Expr.same_iff_canonical_eq.2 (hf s.storage)⟩

/-- A script that was taken apart from a tree, with trees that can be read back. -/
structure IsReadBack (s : Script) : Prop where
  program : ∃ root, s.program = Program.ofTree root
  annots : s.program.toTree.IsWellAnnotated ∧ s.storage.IsWellAnnotated
  height : s.program.toTree.height ≤ Expr.defaultLimit ∧ s.storage.height ≤ Expr.defaultLimit

/-- A program is taken apart from its tree as it was, whatever was done to the trees. -/
lemma IsReadBack.ofTree_map (h : s.IsReadBack) {f : Expr → Expr} (hf : KeepsSections f) :
    Program.ofTree (f s.program.toTree) = s.program.mapTrees f := by
  obtain ⟨root, hroot⟩ := h.program
  rw [hroot, Program.ofTree_map_toTree hf]

/-- Writing a script fails over the lengths alone. -/
lemma IsReadBack.encode_eq_ok_iff (h : s.IsReadBack) {b : Bytes} :
    s.encode = .ok b ↔ (s.program.toTree.HasShortSpelling ∧ s.storage.HasShortSpelling) ∧
      b = s.program.toTree.spelling.sized ++ s.storage.spelling.sized := by
  obtain ⟨hprogram, hstorage⟩ := h.annots
  constructor
  · intro hb
    obtain ⟨c, hc, hb⟩ := Except.bind_eq_ok_iff.1 hb
    obtain ⟨t, ht, hb⟩ := Except.bind_eq_ok_iff.1 hb
    obtain ⟨t', ht', hb⟩ := Except.bind_eq_ok_iff.1 hb
    obtain ⟨hshort, rfl⟩ := (Expr.encodeBlock_encode_eq_ok_iff hprogram).1 hc
    obtain ⟨hshort', rfl⟩ := (Expr.encodeBlock_encode_eq_ok_iff hstorage).1
      (Except.bind_eq_ok_iff.2 ⟨t, ht, ht'⟩)
    cases hb
    exact ⟨⟨hshort, hshort'⟩, rfl⟩
  · rintro ⟨⟨hshort, hshort'⟩, rfl⟩
    have hc : s.program.encode = .ok s.program.toTree.spelling.sized :=
      (Expr.encodeBlock_encode_eq_ok_iff hprogram).2 ⟨hshort, rfl⟩
    rw [encode, hc, Except.ok_bind, Expr.encode_of_isSpellable ⟨hstorage, hshort'.payloads⟩,
      Except.ok_bind, encodeBlock_of_isShort hshort'.short]
    rfl

/-- From its bytes a script is read with its trees in normal form. -/
lemma IsReadBack.decode_of_encode (h : s.IsReadBack) {b : Bytes} (hb : s.encode = .ok b) :
    decode b = .ok (s.mapTrees Expr.normal) := by
  obtain ⟨⟨hprogram, hstorage⟩, rfl⟩ := h.encode_eq_ok_iff.1 hb
  obtain ⟨hspelling, hfits⟩ := Expr.fitsFrame_normal h.annots.1 hprogram h.height.1
  obtain ⟨hspelling', hfits'⟩ := Expr.fitsFrame_normal h.annots.2 hstorage h.height.2
  refine decode_eq_ok_iff.2 ⟨s.program.toTree.normal, ?_, hfits, hfits', ?_⟩
  · rw [hspelling, hspelling', mapTrees]
  · rw [h.ofTree_map keepsSections_normal, mapTrees]

/-- From its JSON form a script is read with its trees in canonical form. -/
lemma IsReadBack.ofDocument_toJson (h : s.IsReadBack) (hlevels : s.toJson.nesting ≤ levels) :
    ofDocument levels (.ofJson s.toJson) = .ok (s.mapTrees Expr.canonical) := by
  obtain ⟨below, rfl, hbelow⟩ := Json.nesting_object_le_iff.1 hlevels
  obtain ⟨hcodeBelow, hstorageBelow⟩ := List.forall_mem_cons.1 hbelow
  have hcode : Program.ofDocument below (.ofJson s.program.toTree.toJson) =
      .ok (s.program.mapTrees Expr.canonical) := by
    rw [Program.ofDocument, Expr.ofDocument_toJson ⟨h.annots.1, h.height.1, hcodeBelow⟩,
      ← h.ofTree_map keepsSections_canonical]
    rfl
  have hstorage : Expr.ofDocument below (.ofJson s.storage.toJson) = .ok s.storage.canonical :=
    Expr.ofDocument_toJson ⟨h.annots.2, h.height.2, hstorageBelow _ List.mem_cons_self⟩
  -- the members are read one after the other, in the order in which they are written
  have hfirst : Document.readMember fields below ⟨none, none⟩
      ("code", .ofJson s.program.toTree.toJson) =
      .ok ⟨some (s.program.mapTrees Expr.canonical), none⟩ := by
    show (do return (⟨some (← Program.ofDocument below _), none⟩ : Draft)) = _
    rw [hcode]
    rfl
  have hsecond : Document.readMember fields below
      ⟨some (s.program.mapTrees Expr.canonical), none⟩ ("storage", .ofJson s.storage.toJson) =
      .ok ⟨some (s.program.mapTrees Expr.canonical), some s.storage.canonical⟩ := by
    show (do return (⟨_, some (← Expr.ofDocument below _)⟩ : Draft)) = _
    rw [hstorage]
    rfl
  have hmembers : Document.ofMembers [("code", s.program.toTree.toJson),
      ("storage", s.storage.toJson)] = [("code", .ofJson s.program.toTree.toJson),
      ("storage", .ofJson s.storage.toJson)] := Document.ofMembers_eq_map _
  rw [ofDocument, toJson, Document.ofJson, hmembers, Document.readRecord_object]
  case h =>
    rw [List.foldlM_cons, hfirst, Except.ok_bind, List.foldlM_cons, hsecond]
    rfl
  rfl

lemma isReadBack_ofTree {root v : Expr} (hroot : root.IsWellAnnotated) (hv : v.IsWellAnnotated)
    (hrootHeight : root.height ≤ Expr.defaultLimit) (hvHeight : v.height ≤ Expr.defaultLimit) :
    (⟨Program.ofTree root, v⟩ : Script).IsReadBack :=
  ⟨⟨root, rfl⟩, ⟨Program.isWellAnnotated_toTree hroot, hv⟩,
    ⟨Program.height_toTree_le hrootHeight, hvHeight⟩⟩

/-- A script whose program was taken apart from a tree comes back from both its forms as the same
script, for every tree and every value of storage that are not higher than the limit and have no
annotation that is empty or has a space.  The bytes are written exactly when the lengths in them fit
their words, and the JSON form is read in all numbers of levels that it fits in. -/
theorem same_of_read_back (root v : Expr) (hroot : root.height ≤ 1024) (hv : v.height ≤ 1024)
    (hannots : ∀ e ∈ [root, v], ∀ n ∈ e.nodes, ∀ a ∈ n.annots, a ≠ "" ∧ ' ' ∉ a.toList) :
    let s : Script := ⟨Program.ofTree root, v⟩
    ((∃ b, s.encode = .ok b) ↔ ∀ e ∈ [s.program.toTree, v],
      e.spelling.length < 2 ^ 32 ∧ ∀ n ∈ e.nodes, ∀ c ∈ n.payloads, c.length < 2 ^ 32) ∧
    (∀ b, s.encode = .ok b → ∃ s', decode b = .ok s' ∧ s'.Same s) ∧
    (∀ levels, s.toJson.nesting ≤ levels →
      ∃ s'', ofDocument levels (.ofJson s.toJson) = .ok s'' ∧ s''.Same s) ∧
    ∀ b s' levels s'', s.encode = .ok b → decode b = .ok s' → s.toJson.nesting ≤ levels →
      ofDocument levels (.ofJson s.toJson) = .ok s'' → s'.Same s'' := by
  intro s
  have hwell : ∀ e ∈ [root, v], e.IsWellAnnotated := by
    intro e he n hn a ha
    exact isAnnot_iff.2 (hannots e he n hn a ha)
  have hs : s.IsReadBack :=
    isReadBack_ofTree (hwell root (by simp)) (hwell v (by simp)) hroot hv
  have hbytes : (s.mapTrees Expr.normal).Same s := same_mapTrees Expr.canonical_normal s
  have hjson : (s.mapTrees Expr.canonical).Same s := same_mapTrees Expr.canonical_canonical s
  refine ⟨?_, fun b hb => ⟨_, hs.decode_of_encode hb, hbytes⟩,
    fun levels hlevels => ⟨_, hs.ofDocument_toJson hlevels, hjson⟩, ?_⟩
  · have hshort : ∀ e : Expr, e.HasShortSpelling ↔
        e.spelling.length < 2 ^ 32 ∧ ∀ n ∈ e.nodes, ∀ c ∈ n.payloads, c.length < 2 ^ 32 :=
      fun e => ⟨fun h => ⟨h.short, h.payloads⟩, fun h => ⟨h.2, h.1⟩⟩
    simp only [hs.encode_eq_ok_iff, exists_and_left, exists_eq, and_true, hshort,
      List.forall_mem_cons, List.not_mem_nil, false_implies, implies_true]
    rfl
  · intro b s' levels s'' hb hs' hlevels hs''
    rw [hs.decode_of_encode hb, Except.ok.injEq] at hs'
    rw [hs.ofDocument_toJson hlevels, Except.ok.injEq] at hs''
    exact hs' ▸ hs'' ▸ hbytes.trans hjson.symm

/-- A storage section in the wide form before a parameter section, and an unpacked value.  The bytes
keep the wide form and the JSON form does not, and both have the sections in order. -/
theorem same_of_read_back_misplaced :
    let parameter := Expr.app (.keyword .parameter) [.type0 .unit] ["%main"] false false
    let storage (wide : Bool) := Expr.app (.keyword .storage) [.type0 .nat] [] wide false
    let root := Expr.list [storage true, parameter]
    let s : Script := ⟨Program.ofTree root, (Expr.int 1).markUnpacked⟩
    let b : Bytes := [0, 0, 0, 30, 2, 0, 0, 0, 25, 6, 0, 3, 108, 0, 0, 0, 5, 37, 109, 97, 105, 110,
      9, 1, 0, 0, 0, 2, 3, 98, 0, 0, 0, 0, 0, 0, 0, 2, 0, 1]
    let read (wide : Bool) : Script :=
      ⟨⟨some parameter, some (storage wide), none, [], none⟩, .int 1⟩
    (root.height ≤ 1024 ∧ s.storage.height ≤ 1024 ∧
      ∀ e ∈ [root, s.storage], ∀ n ∈ e.nodes, ∀ a ∈ n.annots, a ≠ "" ∧ ' ' ∉ a.toList) ∧
    s.encode = .ok b ∧ decode b = .ok (read true) ∧
      ofDocument 127 (.ofJson s.toJson) = .ok (read false) ∧
      (read true).Same s ∧ (read false).Same s ∧ (read true).Same (read false) := by
  intro parameter storage root s b read
  have hheight : root.height ≤ 1024 ∧ s.storage.height ≤ 1024 := by decide
  have hannots : ∀ e ∈ [root, s.storage], ∀ n ∈ e.nodes, ∀ a ∈ n.annots,
      a ≠ "" ∧ ' ' ∉ a.toList := by decide
  have hencode : s.encode = .ok b := by rfl
  have hdecode : decode b = .ok (read true) := by rfl
  have hdocument : ofDocument 127 (.ofJson s.toJson) = .ok (read false) := by rfl
  have hnesting : s.toJson.nesting ≤ 127 := by decide
  obtain ⟨-, hbytes, hjson, hboth⟩ :=
    same_of_read_back root s.storage hheight.1 hheight.2 hannots
  obtain ⟨s', hs', hsame'⟩ := hbytes b hencode
  obtain ⟨s'', hs'', hsame''⟩ := hjson 127 hnesting
  rw [hdecode, Except.ok.injEq] at hs'
  rw [hdocument, Except.ok.injEq] at hs''
  exact ⟨⟨hheight.1, hheight.2, hannots⟩, hencode, hdecode, hdocument, hs' ▸ hsame', hs'' ▸ hsame'',
    hboth b _ 127 _ hencode hdecode hnesting hdocument⟩

end Script

end Michelson
