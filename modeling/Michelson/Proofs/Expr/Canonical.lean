/-
# Trees that were read from JSON

Reading JSON passes over much of a value: members it does not know, the order of members, empty
lists of arguments, leading zeros, the case of hex digits.  None of it is left in the tree.  A tree
that was read is *canonical*: its annotations can be written, it is its own canonical form, and it
is not higher than the limit (`isCanonical_of_ofJsonWithin`).

A canonical tree is also its own normal form, so nothing but the lengths of its payloads stands
between it and the trees that are read from bytes.  The main statement is `reread_of_ofJson`: what
was read from JSON is read again, as the very same tree, from its JSON form and from its bytes.
-/
import Michelson.Proofs.Expr.Exact
import Michelson.Proofs.Expr.Json

namespace Michelson.Expr

/-- A tree as reading JSON returns it: it has annotations that can be written and is in canonical
form, with fewer than `levels` levels below the root. -/
structure IsCanonical (levels : Nat) (e : Expr) : Prop where
  annots : e.IsWellAnnotated
  canonical_eq : e.canonical = e
  height_lt : e.height < levels

variable {part : Json → Except Error Expr} {limit levels : Nat}

lemma canonicalAll_eq_self {es : List Expr} (h : ∀ e ∈ es, e.IsCanonical levels) :
    canonicalAll es = es := by
  rw [canonicalAll_eq_map]
  exact (List.map_congr_left fun e he => (h e he).canonical_eq).trans (List.map_id es)

lemma isCanonical_of_args {e : Expr} (hargs : ∀ a ∈ e.args, a.IsCanonical levels)
    (hannots : AreAnnots e.annots) (hcanonical : e.canonical = e) : e.IsCanonical (levels + 1) :=
  ⟨isWellAnnotated_iff.2 ⟨hannots, fun a ha => (hargs a ha).annots⟩, hcanonical,
    Nat.lt_succ_of_le (height_le_iff.2 fun a ha => (hargs a ha).height_lt)⟩

lemma isCanonical_literal (l : Literal) : (literal l false).IsCanonical (levels + 1) :=
  isCanonical_of_args (by simp [args]) (by simp [annots, AreAnnots]) rfl

/-! ### Reading a node -/

/-- Whatever a reader of parts returns is canonical. -/
def ReadsCanonical (part : Json → Except Error Expr) (levels : Nat) : Prop :=
  ∀ j e, part j = .ok e → e.IsCanonical levels

lemma ReadsCanonical.mapM (hpart : ReadsCanonical part levels) {js : List Json} {es : List Expr}
    (h : js.mapM part = .ok es) : ∀ e ∈ es, e.IsCanonical levels := by
  intro e he
  obtain ⟨j, -, hj⟩ := Except.exists_of_mem_mapM h he
  exact hpart j e hj

lemma ReadsCanonical.readArgs (hpart : ReadsCanonical part levels) {member : Option Json}
    {es : List Expr} (h : readArgs part member = .ok es) : ∀ e ∈ es, e.IsCanonical levels := by
  unfold Expr.readArgs at h
  split at h
  · cases h
    simp
  · cases h
    simp
  · exact hpart.mapM h
  · cases h

lemma areAnnots_of_annotsOf {member : Option Json} {annots : List String}
    (h : annotsOf member = .ok annots) : AreAnnots annots := by
  unfold annotsOf at h
  split at h
  · cases h
    simp [AreAnnots]
  · cases h
    simp [AreAnnots]
  · intro a ha
    obtain ⟨j, -, hj⟩ := Except.exists_of_mem_mapM h ha
    -- an item is taken only if it is a text that passes the check
    unfold annotOf at hj
    split at hj
    · split at hj
      · next hannot =>
        cases hj
        exact hannot
      · cases hj
    · cases hj
  · cases h

lemma exists_literal_of_readLiteral {members : List (String × Json)} {e : Expr}
    (h : readLiteral members = .ok e) : ∃ l, e = literal l false := by
  unfold readLiteral at h
  split at h
  · obtain ⟨text, -, h⟩ := Except.bind_eq_ok_iff.1 h
    split at h
    · cases h
      exact ⟨_, rfl⟩
    · cases h
  · split at h
    · obtain ⟨text, -, h⟩ := Except.bind_eq_ok_iff.1 h
      cases h
      exact ⟨_, rfl⟩
    · split at h
      · obtain ⟨text, -, h⟩ := Except.bind_eq_ok_iff.1 h
        split at h
        · cases h
          exact ⟨_, rfl⟩
        · cases h
      · cases h

lemma ReadsCanonical.ofJsonNode (hpart : ReadsCanonical part levels) :
    ReadsCanonical (ofJsonNode part) (levels + 1) := by
  intro j e h
  unfold Expr.ofJsonNode at h
  split at h
  · obtain ⟨items, hitems, h⟩ := Except.bind_eq_ok_iff.1 h
    cases h
    have hall := hpart.mapM hitems
    refine isCanonical_of_args hall (by simp [list, annots, AreAnnots]) ?_
    rw [list, canonical, canonicalAll_eq_self hall]
  · split at h
    · obtain ⟨l, rfl⟩ := exists_literal_of_readLiteral h
      exact isCanonical_literal l
    · obtain ⟨p, -, h⟩ := Except.bind_eq_ok_iff.1 h
      obtain ⟨args, hargs, h⟩ := Except.bind_eq_ok_iff.1 h
      obtain ⟨annots, hannots, h⟩ := Except.bind_eq_ok_iff.1 h
      cases h
      have hall := hpart.readArgs hargs
      refine isCanonical_of_args hall (areAnnots_of_annotsOf hannots) ?_
      rw [canonical, canonicalAll_eq_self hall]
  · cases h

/-- Whatever is read from JSON is canonical, by induction on the levels that are left: a node adds
one level to those of its parts. -/
lemma isCanonical_of_ofJsonWithin (limit levels : Nat) :
    ReadsCanonical (ofJsonWithin limit levels) levels := by
  induction levels with
  | zero =>
    intro j e h
    cases h
  | succ levels ih => exact ih.ofJsonNode

/-! ### Reading again -/

lemma normal_canonical (e : Expr) : e.canonical.normal = e.canonical := by
  have hall : ∀ es : List Expr, (∀ a ∈ es, a.canonical.normal = a.canonical) →
      normalAll (canonicalAll es) = canonicalAll es := by
    intro es h
    rw [normalAll_eq_map, canonicalAll_eq_map, List.map_map]
    exact List.map_congr_left h
  induction e using Expr.induct with
  | literal l u => rfl
  | seq items u ih => rw [canonical, normal, hall items ih]
  | app p args annots w u ih =>
    rw [canonical, normal, hall args ih, canonicalAll_eq_map, List.length_map, Bool.or_self]

/-- With short payloads a canonical tree is one that is read from bytes. -/
lemma IsCanonical.isReadable {e : Expr} (h : e.IsCanonical levels) (hshort : e.HasShortPayloads) :
    e.IsReadable levels := by
  refine ⟨⟨h.annots, hshort⟩, ?_, h.height_lt⟩
  rw [← h.canonical_eq, normal_canonical]

lemma IsCanonical.ofJson_toJson_eq {e : Expr} (h : e.IsCanonical (limit + 1)) :
    ofJson limit e.toJson = .ok e := by
  rw [ofJson_toJson_of_isWellAnnotated limit h.annots, if_pos (Nat.le_of_lt_succ h.height_lt),
    h.canonical_eq]

/-- A tree that was read from a JSON value, whatever else was in it, is read from its own JSON form
under the same limit, and if its lengths fit their words it can be written as bytes and is read from
these under the same limit.  Both readings give the very same tree, the choice of the wide form
included. -/
theorem reread_of_ofJson {j : Json} {e : Expr} (h : ofJson limit j = .ok e) :
    ofJson limit e.toJson = .ok e ∧
      ((∀ n ∈ e.nodes, ∀ b ∈ n.payloads, b.length < 2 ^ 32) →
        ∃ b, encode e = .ok b ∧ decode limit b = .ok e) := by
  have hcanonical := isCanonical_of_ofJsonWithin limit (limit + 1) j e h
  refine ⟨hcanonical.ofJson_toJson_eq, fun short => ?_⟩
  have hreadable := hcanonical.isReadable short
  exact ⟨e.spelling, encode_of_isSpellable hreadable.spellable,
    decode_eq_ok_iff.2 ⟨rfl, hreadable⟩⟩

/-- A pair of three parts with an unknown member, a null list of annotations, a leading zero and hex
digits of both cases, read under the least limit for it. -/
theorem reread_of_ofJson_pair :
    let j := Json.object [("prim", .text "Pair"), ("annots", .null), ("note", .bool true),
      ("args", .array [.object [("int", .text "-007")], .object [("bytes", .text "0aFf")],
        .object [("args", .array []), ("prim", .text "Unit"), ("annots", .array [.text "%u"])]])]
    let e := app (.data .pair) [int (-7), bytes [0x0a, 0xff],
      app (.data .unit) [] ["%u"] false false] [] true false
    ofJson 1 j = .ok e ∧ ofJson 1 e.toJson = .ok e ∧ ∃ b, encode e = .ok b ∧ decode 1 b = .ok e := by
  intro j e
  have h : ofJson 1 j = .ok e := by rfl
  have short : ∀ n ∈ e.nodes, ∀ b ∈ n.payloads, b.length < 2 ^ 32 := by decide +kernel
  obtain ⟨hjson, hbytes⟩ := reread_of_ofJson h
  exact ⟨h, hjson, hbytes short⟩

end Michelson.Expr
