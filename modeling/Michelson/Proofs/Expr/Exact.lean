/-
# Bytes that can be read have one form

Whatever is read as a tree was its spelling, and the tree is spellable: the reader follows the
writer branch by branch and has no leniency at any depth.  A tree that was read is its own normal
form, so by the round trip it is read again from its spelling.

The main statement is `encode_of_decode`: writing what was read gives the very same bytes, so no two
byte strings are read as the same tree.
-/
import Michelson.Proofs.Expr.RoundTrip

namespace Michelson.Expr

open Decoder

/-- A tree as readers return it: it can be written and is in normal form, with fewer than `levels`
levels below the root. -/
structure IsReadable (levels : Nat) (e : Expr) : Prop where
  spellable : e.IsSpellable
  normal_eq : e.normal = e
  height_lt : e.height < levels

variable {part : Decoder Expr} {levels : Nat}

lemma decodePrimitive_eq_ok {b rest : Bytes} {p : Primitive} (h : decodePrimitive b = .ok p rest) :
    b = p.code :: rest := by
  obtain ⟨c, mid, h1, h2⟩ := bind_eq_ok_iff.1 h
  cases hc : Primitive.ofCode? c with
  | none =>
    simp only [hc] at h2
    exact absurd h2 throw_ne_ok
  | some q =>
    simp only [hc] at h2
    obtain ⟨rfl, rfl⟩ := pure_eq_ok_iff.1 h2
    rw [byte_eq_ok_iff.1 h1, Primitive.code_of_ofCode? hc]

lemma lift_eq_ok_iff {α : Type} {x : Except Error α} {b rest : Bytes} {a : α} :
    lift x b = .ok a rest ↔ x = .ok a ∧ rest = b := by
  cases x with
  | ok c => simp [lift, eq_comm]
  | error e => simp [lift]

lemma decodeAnnots_eq_ok {b rest : Bytes} {annots : List String}
    (h : decodeAnnots b = .ok annots rest) :
    b = (annotText annots).sized ++ rest ∧ AreAnnots annots ∧ (annotText annots).IsShort :=
  decodeAnnots_exact b annots rest h

lemma decodeMany_eq_ok (hpart : Exact part spelling (IsReadable levels)) {count : Nat}
    {b rest : Bytes} {es : List Expr} (h : decodeMany part count b = .ok es rest) :
    b = spellingAll es ++ rest ∧ es.length = count ∧ ∀ e ∈ es, e.IsReadable levels := by
  rw [spellingAll_eq_flatMap]
  exact decodeMany_exact hpart count b es rest h

lemma fill_eq_ok (hpart : Exact part spelling (IsReadable levels)) {window : Bytes}
    {es : List Expr} (h : fill part window = .ok es) :
    window = spellingAll es ∧ ∀ e ∈ es, e.IsReadable levels := by
  rw [spellingAll_eq_flatMap]
  exact items_exact hpart h

lemma normalAll_eq_self {es : List Expr} (h : ∀ e ∈ es, e.IsReadable levels) :
    normalAll es = es := by
  induction es with
  | nil => rfl
  | cons e es ih =>
    rw [normalAll, (h e List.mem_cons_self).normal_eq,
      ih fun a ha => h a (List.mem_cons_of_mem e ha)]

lemma isReadable_of_args {e : Expr} (hargs : ∀ a ∈ e.args, a.IsReadable levels)
    (hannots : AreAnnots e.annots) (hpayloads : ∀ b ∈ e.payloads, b.IsShort)
    (hnormal : e.normal = e) : e.IsReadable (levels + 1) :=
  ⟨isSpellable_of_args hannots hpayloads fun a ha => (hargs a ha).spellable, hnormal,
    Nat.lt_succ_of_le (height_le_iff.2 fun a ha => (hargs a ha).height_lt)⟩

lemma isReadable_literal (l : Literal) (h : ∀ b ∈ (literal l false).payloads, b.IsShort) :
    (literal l false).IsReadable (levels + 1) :=
  isReadable_of_args (by simp [args]) (by simp [annots, AreAnnots]) h rfl

/-! ### One node -/

/-- The annotations behind the arguments of a narrow form. -/
lemma narrowAnnots_eq_ok (p : Primitive) (args : List Expr) (annotated : Bool) {b rest : Bytes}
    {e : Expr}
    (h : (do
      let annots ← if annotated then decodeAnnots else pure []
      if annotated && annots.isEmpty then throw (.invalidAnnot .emptyList)
      return app p args annots false false : Decoder Expr) b = .ok e rest) :
    ∃ annots, e = app p args annots false false ∧ annotated = !annots.isEmpty ∧
      b = (if annots.isEmpty then [] else (annotText annots).sized) ++ rest ∧
      AreAnnots annots ∧ (annots ≠ [] → (annotText annots).IsShort) := by
  cases annotated with
  | false =>
    simp only [Bool.false_eq_true, if_false, Bool.false_and] at h
    obtain ⟨rfl, rfl⟩ := pure_eq_ok_iff.1 h
    exact ⟨[], rfl, rfl, rfl, fun a ha => absurd ha List.not_mem_nil, fun hne => absurd rfl hne⟩
  | true =>
    simp only [if_true, Bool.true_and] at h
    obtain ⟨annots, mid, h1, h2⟩ := bind_eq_ok_iff.1 h
    obtain ⟨rfl, hannots, hshort⟩ := decodeAnnots_eq_ok h1
    by_cases hempty : annots.isEmpty
    · rw [if_pos hempty] at h2
      cases h2
    · rw [if_neg hempty] at h2
      obtain ⟨rfl, rfl⟩ := pure_eq_ok_iff.1 h2
      rw [Bool.not_eq_true] at hempty
      exact ⟨annots, rfl, by rw [hempty]; rfl, by simp [hempty], hannots, fun _ => hshort⟩

lemma decodeNarrow_eq_ok (hpart : Exact part spelling (IsReadable levels)) {count : Nat}
    (hcount : count ≤ 2) {annotated : Bool} {b rest : Bytes} {e : Expr}
    (h : decodeNarrow part count annotated b = .ok e rest) :
    (Kind.ofArity count annotated).tag :: b = e.spelling ++ rest ∧ e.IsReadable (levels + 1) := by
  obtain ⟨p, b₁, h1, h2⟩ := bind_eq_ok_iff.1 h
  obtain ⟨args, b₂, h3, h4⟩ := bind_eq_ok_iff.1 h2
  obtain rfl := decodePrimitive_eq_ok h1
  obtain ⟨rfl, rfl, hargs⟩ := decodeMany_eq_ok hpart h3
  have hnarrow : ¬ (false || 2 < args.length) := narrow_iff.2 ⟨rfl, hcount⟩
  obtain ⟨annots, rfl, rfl, rfl, hannots, hshort⟩ :=
    narrowAnnots_eq_ok p args annotated (by cases annotated <;> exact h4)
  refine ⟨?_, isReadable_of_args hargs hannots ?_ ?_⟩
  · rw [spelling, if_neg hnarrow]
    simp only [List.cons_append, List.append_assoc]
  · rw [payloads, if_neg hnarrow]
    by_cases hne : annots = []
    · simp [hne]
    · simpa [hne] using hshort hne
  · rw [normal, normalAll_eq_self hargs, Bool.eq_false_of_not_eq_true hnarrow]

lemma decodeWide_eq_ok (hpart : Exact part spelling (IsReadable levels)) {b rest : Bytes} {e : Expr}
    (h : decodeWide part b = .ok e rest) :
    0x09 :: b = e.spelling ++ rest ∧ e.IsReadable (levels + 1) := by
  obtain ⟨p, b₁, h1, h2⟩ := bind_eq_ok_iff.1 h
  obtain ⟨window, b₂, h3, h4⟩ := bind_eq_ok_iff.1 h2
  obtain ⟨args, b₃, h5, h6⟩ := bind_eq_ok_iff.1 h4
  obtain ⟨annots, b₄, h7, h8⟩ := bind_eq_ok_iff.1 h6
  obtain rfl := decodePrimitive_eq_ok h1
  obtain ⟨rfl, hbody⟩ := block_eq_ok_iff.1 h3
  obtain ⟨hfill, rfl⟩ := lift_eq_ok_iff.1 h5
  obtain ⟨rfl, hargs⟩ := fill_eq_ok hpart hfill
  obtain ⟨rfl, hannots, hshort⟩ := decodeAnnots_eq_ok h7
  obtain ⟨rfl, rfl⟩ := pure_eq_ok_iff.1 h8
  have hwide : (true || decide (2 < args.length)) = true := Bool.true_or _
  refine ⟨?_, isReadable_of_args hargs hannots ?_ ?_⟩
  · rw [spelling, if_pos hwide]
    simp only [List.cons_append, List.append_assoc]
  · rw [payloads, if_pos hwide]
    simp [hbody, hshort]
  · rw [normal, normalAll_eq_self hargs, hwide]

/-- A node that was read is spelled by the tag and the bytes behind it. -/
lemma decodeNode_eq_ok (hpart : Exact part spelling (IsReadable levels)) {tag : UInt8}
    {b rest : Bytes} {e : Expr} (h : decodeNode part tag b = .ok e rest) :
    tag :: b = e.spelling ++ rest ∧ e.IsReadable (levels + 1) := by
  unfold decodeNode at h
  split at h
  case h_1 =>
    obtain ⟨n, mid, h1, h2⟩ := bind_eq_ok_iff.1 h
    obtain ⟨rfl, rfl⟩ := pure_eq_ok_iff.1 h2
    obtain ⟨rfl, -⟩ := Zarith.decode_exact b n rest h1
    exact ⟨rfl, isReadable_literal (.int n) (by simp [payloads])⟩
  case h_2 =>
    obtain ⟨raw, mid, h1, h2⟩ := bind_eq_ok_iff.1 h
    obtain ⟨rfl, hshort⟩ := block_eq_ok_iff.1 h1
    cases hraw : Utf8.decode? raw with
    | none =>
      simp only [hraw] at h2
      exact absurd h2 throw_ne_ok
    | some s =>
      simp only [hraw] at h2
      obtain ⟨rfl, rfl⟩ := pure_eq_ok_iff.1 h2
      rw [← Utf8.encode_of_decode? hraw] at hshort ⊢
      exact ⟨rfl, isReadable_literal (.string s) (by simpa [payloads] using hshort)⟩
  case h_3 =>
    obtain ⟨window, mid, h1, h2⟩ := bind_eq_ok_iff.1 h
    obtain ⟨items, mid', h3, h4⟩ := bind_eq_ok_iff.1 h2
    obtain ⟨rfl, hbody⟩ := block_eq_ok_iff.1 h1
    obtain ⟨hfill, rfl⟩ := lift_eq_ok_iff.1 h3
    obtain ⟨rfl, hitems⟩ := fill_eq_ok hpart hfill
    obtain ⟨rfl, rfl⟩ := pure_eq_ok_iff.1 h4
    refine ⟨rfl, isReadable_of_args hitems (by simp [list, annots, AreAnnots]) ?_ ?_⟩
    · simpa [list, payloads] using hbody
    · rw [list, normal, normalAll_eq_self hitems]
  case h_11 =>
    obtain ⟨raw, mid, h1, h2⟩ := bind_eq_ok_iff.1 h
    obtain ⟨rfl, hshort⟩ := block_eq_ok_iff.1 h1
    obtain ⟨rfl, rfl⟩ := pure_eq_ok_iff.1 h2
    exact ⟨rfl, isReadable_literal (.bytes raw) (by simpa [payloads] using hshort)⟩
  case h_12 => exact absurd h throw_ne_ok
  -- the tags between are those of the narrow forms, and that of the wide form behind them
  · exact decodeNarrow_eq_ok hpart (Nat.zero_le 2) h
  · exact decodeNarrow_eq_ok hpart (Nat.zero_le 2) h
  · exact decodeNarrow_eq_ok hpart (Nat.le_succ 1) h
  · exact decodeNarrow_eq_ok hpart (Nat.le_succ 1) h
  · exact decodeNarrow_eq_ok hpart (Nat.le_refl 2) h
  · exact decodeNarrow_eq_ok hpart (Nat.le_refl 2) h
  · exact decodeWide_eq_ok hpart h

/-- A tree that was read was spelled in front of the bytes that are left. -/
theorem decodeWithin_exact (limit levels : Nat) :
    Exact (decodeWithin limit levels) spelling (IsReadable levels) := by
  induction levels with
  | zero =>
    intro b e rest h
    exact absurd h throw_ne_ok
  | succ levels ih =>
    intro b e rest h
    rw [decodeWithin_succ] at h
    obtain ⟨tag, mid, h1, h2⟩ := bind_eq_ok_iff.1 h
    obtain rfl := byte_eq_ok_iff.1 h1
    exact decodeNode_eq_ok ih h2

lemma runAll_eq_ok_iff {α : Type} {d : Decoder α} {b : Bytes} {a : α} :
    d.runAll b = .ok a ↔ d b = .ok a [] := by
  rw [runAll]
  split <;> simp_all

lemma decode_eq_ok {limit : Nat} {b : Bytes} {e : Expr} (h : decode limit b = .ok e) :
    b = e.spelling ∧ e.IsReadable (limit + 1) := by
  obtain ⟨hb, he⟩ := decodeWithin_exact limit (limit + 1) b e [] (runAll_eq_ok_iff.1 h)
  rw [List.append_nil] at hb
  exact ⟨hb, he⟩

/-! ### Readable trees -/

lemma IsReadable.mono {e : Expr} {levels' : Nat} (h : e.IsReadable levels) (hle : levels ≤ levels') :
    e.IsReadable levels' :=
  ⟨h.spellable, h.normal_eq, h.height_lt.trans_le hle⟩

lemma IsReadable.isUnpacked_eq {e : Expr} (h : e.IsReadable levels) : e.isUnpacked = false := by
  rw [← h.normal_eq, isUnpacked_normal]

lemma normal_eq_of_mem_args {e a : Expr} (h : e.normal = e) (ha : a ∈ e.args) : a.normal = a := by
  have hargs : ∀ es : List Expr, normalAll es = es → ∀ a ∈ es, a.normal = a := by
    intro es hes
    rw [normalAll_eq_map] at hes
    have hid : es.map normal = es.map id := by rw [hes, List.map_id]
    exact List.map_inj_left.1 hid
  cases e with
  | literal l u => simp [args] at ha
  | seq items u =>
    simp only [normal, seq.injEq] at h
    exact hargs items h.1 a ha
  | app p args annots w u =>
    simp only [normal, app.injEq] at h
    exact hargs args h.2.1 a ha

lemma IsReadable.arg {e a : Expr} (h : e.IsReadable (levels + 1)) (ha : a ∈ e.args) :
    a.IsReadable levels :=
  ⟨h.spellable.arg ha, normal_eq_of_mem_args h.normal_eq ha,
    height_le_iff.1 (Nat.le_of_lt_succ h.height_lt) a ha⟩

lemma IsReadable.reads {e : Expr} (h : e.IsReadable levels) (limit : Nat) :
    Reads (decodeWithin limit levels) e.spelling e := by
  have hreads := (reads_or_rejects limit h.spellable levels).1 h.height_lt
  rwa [h.normal_eq] at hreads

/-- A tree marks its own end: it is read off the front of a byte string exactly when the string
starts with its spelling, whatever comes behind. -/
lemma decoder_eq_ok_iff {limit : Nat} {b rest : Bytes} {e : Expr} :
    decoder limit b = .ok e rest ↔ b = e.spelling ++ rest ∧ e.IsReadable (limit + 1) := by
  constructor
  · intro h
    exact decodeWithin_exact limit (limit + 1) b e rest h
  · rintro ⟨rfl, he⟩
    exact he.reads limit rest

/-- A tree and what stands behind it can be told apart. -/
lemma spelling_append_inj {e e' : Expr} {rest rest' : Bytes} (he : e.IsReadable levels)
    (he' : e'.IsReadable levels) (h : e.spelling ++ rest = e'.spelling ++ rest') :
    e = e' ∧ rest = rest' := by
  have hread := he.reads 0 rest
  rw [h, he'.reads 0 rest'] at hread
  cases hread
  exact ⟨rfl, rfl⟩

lemma decode_eq_ok_iff {limit : Nat} {b : Bytes} {e : Expr} :
    decode limit b = .ok e ↔ b = e.spelling ∧ e.IsReadable (limit + 1) := by
  constructor
  · exact decode_eq_ok
  · rintro ⟨rfl, he⟩
    exact runAll_eq_ok_iff.2 (decoder_eq_ok_iff.2 ⟨(List.append_nil _).symm, he⟩)

/-- Reading is exact: writing what was read gives the very same bytes, so the bytes of a tree are
the only ones that are read as it, whatever the limits are.  What is accepted is exactly what is
written for some tree that is not higher than the limit. -/
theorem encode_of_decode (limit : Nat) (b : Bytes) :
    (∀ e, decode limit b = .ok e →
        encode e = .ok b ∧ ∀ limit' b', decode limit' b' = .ok e → b' = b) ∧
      ((∃ e, decode limit b = .ok e) ↔ ∃ e, encode e = .ok b ∧ e.height ≤ limit) := by
  refine ⟨fun e h => ?_, ?_, ?_⟩
  · obtain ⟨rfl, he⟩ := decode_eq_ok h
    exact ⟨encode_of_isSpellable he.spellable, fun limit' b' h' => (decode_eq_ok h').1⟩
  · rintro ⟨e, h⟩
    obtain ⟨rfl, he⟩ := decode_eq_ok h
    exact ⟨e, encode_of_isSpellable he.spellable, Nat.le_of_lt_succ he.height_lt⟩
  · rintro ⟨e, h, hle⟩
    obtain ⟨hspellable, rfl⟩ := encode_eq_ok_iff.1 h
    exact ⟨e.normal, by rw [decode_spelling hspellable, if_pos hle]⟩

/-- A sequence of a number and an annotated type, read with one level below the root. -/
theorem encode_of_decode_list :
    encode (list [int (-6), app (.type .nat) [] ["%x"] false false]) =
      .ok [2, 0, 0, 0, 10, 0, 70, 4, 98, 0, 0, 0, 2, 37, 120] := by
  have h : decode 1 [2, 0, 0, 0, 10, 0, 70, 4, 98, 0, 0, 0, 2, 37, 120] =
      .ok (list [int (-6), app (.type .nat) [] ["%x"] false false]) := by rfl
  exact ((encode_of_decode 1 _).1 _ h).1

end Michelson.Expr
