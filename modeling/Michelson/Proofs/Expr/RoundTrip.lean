/-
# Reading what was written

A spellable tree is read back from its spelling, whatever stands behind it, as its *normal form*:
the marks of unpacked trees are gone, and an application has the wide form when it asks for it or
has more than two arguments.  When the tree is higher than the limit the reading fails with the
limit.  Both are proved at once by induction on the tree: a part of a tree either is read or is
rejected for its depth, and the node lemmas `reads_node` and `rejects_node` carry this over
to the node that holds the parts.
-/
import Michelson.Expr.Compare
import Michelson.Proofs.Expr.Spelling
import Michelson.Proofs.Primitive

namespace Michelson.Expr

open Decoder

mutual

/-- What reading the spelling of a tree gives. -/
def normal : Expr → Expr
  | literal l _ => literal l false
  | seq items _ => seq (normalAll items) false
  | app p args annots wide _ => app p (normalAll args) annots (wide || 2 < args.length) false

/-- The normal forms of trees. -/
def normalAll : List Expr → List Expr
  | [] => []
  | e :: rest => normal e :: normalAll rest

end

lemma normalAll_eq_map (es : List Expr) : normalAll es = es.map normal := by
  induction es with
  | nil => rfl
  | cons e es ih => rw [normalAll, ih, List.map_cons]

lemma compareAll_map_of_forall {annotated : Bool} {f : Expr → Expr} {es : List Expr}
    (h : ∀ e ∈ es, compare annotated (f e) e) : compareAll annotated (es.map f) es := by
  induction es with
  | nil => rfl
  | cons e es ih =>
    rw [List.map_cons, compareAll, h e List.mem_cons_self,
      ih fun a ha => h a (List.mem_cons_of_mem e ha)]
    rfl

/-- The normal form of a tree is the same tree. -/
lemma same_normal (e : Expr) : same e.normal e := by
  induction e using Expr.induct with
  | literal l u => simp [same, normal, compare]
  | seq items u ih =>
    rw [same, normal, compare, normalAll_eq_map]
    exact compareAll_map_of_forall ih
  | app p args annots w u ih =>
    rw [same, normal, compare, normalAll_eq_map, compareAll_map_of_forall ih]
    simp

lemma args_normal (e : Expr) : e.normal.args = e.args.map normal := by
  cases e with
  | literal l u => rfl
  | seq items u => exact normalAll_eq_map items
  | app p args annots w u => exact normalAll_eq_map args

lemma nodes_normal (e : Expr) : e.normal.nodes = e.nodes.map normal := by
  induction e using inductArgs with
  | node e ih =>
    have hargs : e.args.flatMap (fun a => a.normal.nodes) =
        e.args.flatMap fun a => a.nodes.map normal := List.flatMap_congr ih
    rw [nodes_eq_cons, nodes_eq_cons, args_normal, List.flatMap_map, hargs, List.map_cons,
      List.map_flatMap]

lemma isUnpacked_normal (e : Expr) : e.normal.isUnpacked = false := by
  cases e <;> rfl

/-- The normal form has the same form in the binary encoding, at every node. -/
lemma kind_normal (e : Expr) : e.normal.kind = e.kind := by
  cases e with
  | literal l u => cases l <;> rfl
  | seq items u => rfl
  | app p args annots w u =>
    have hlength : (normalAll args).length = args.length := by
      rw [normalAll_eq_map, List.length_map]
    rw [normal]
    by_cases hwide : w || 2 < args.length
    · rw [hwide, kind_app_of_wide hwide, kind_app_of_wide (Bool.true_or _)]
    · have hcount : ¬ 2 < args.length := fun h => hwide (by simp [h])
      rw [Bool.eq_false_of_not_eq_true hwide, kind_app_of_narrow hwide,
        kind_app_of_narrow (by simpa [hlength] using hcount), hlength]

/-! ### Reading a node whose parts can be read -/

variable {part : Decoder Expr} {err : Error}

lemma reads_decodePrimitive (p : Primitive) : Reads decodePrimitive [p.code] p := by
  intro rest
  rw [decodePrimitive, bind_apply_of_ok (reads_byte p.code rest), Primitive.ofCode?_code]
  rfl

lemma fill_of_reads {es : List Expr} (h : ∀ e ∈ es, Reads part e.spelling e.normal) :
    fill part (spellingAll es) = .ok (normalAll es) := by
  rw [spellingAll_eq_flatMap, normalAll_eq_map]
  exact items_of_reads (fun e _ => e.spelling_ne_nil) h (Nat.le_refl _)

lemma fill_of_rejects {es : List Expr}
    (h : ∀ e ∈ es, Reads part e.spelling e.normal ∨ Rejects part e.spelling err)
    (hbad : ∃ e ∈ es, Rejects part e.spelling err) :
    fill part (spellingAll es) = .error err := by
  rw [spellingAll_eq_flatMap]
  exact items_of_rejects (fun e _ => e.spelling_ne_nil) h hbad (Nat.le_refl _)

lemma narrow_iff {w : Bool} {args : List Expr} :
    ¬ (w || 2 < args.length) ↔ w = false ∧ args.length ≤ 2 := by
  simp

/-- The tag of a narrow form leads to the reader for its number of arguments. -/
lemma decodeNode_narrow (part : Decoder Expr) {count : Nat} (h : count ≤ 2) (annotated : Bool) :
    decodeNode part (Kind.ofArity count annotated).tag = decodeNarrow part count annotated := by
  interval_cases count <;> cases annotated <;> rfl

lemma reads_decodeNarrow {p : Primitive} {args : List Expr} {annots : List String}
    (hargs : ∀ a ∈ args, Reads part a.spelling a.normal) (hannots : AreAnnots annots)
    (hshort : annots ≠ [] → (annotText annots).IsShort) :
    Reads (decodeNarrow part args.length !annots.isEmpty)
      (p.code :: (spellingAll args ++ if annots.isEmpty then [] else (annotText annots).sized))
      (app p (normalAll args) annots false false) := by
  have hmany := reads_decodeMany hargs
  rw [← spellingAll_eq_flatMap, ← normalAll_eq_map] at hmany
  refine (reads_decodePrimitive p).bind (hmany.bind ?_)
  by_cases hne : annots = []
  · subst hne
    exact reads_pure _
  · have hempty : annots.isEmpty = false := by simpa using hne
    simp only [hempty, Bool.not_false, if_true, Bool.false_eq_true, if_false]
    refine (reads_decodeAnnots hannots (hshort hne)).bind_nil ?_
    simp only [hempty, Bool.and_false, Bool.false_eq_true, if_false]
    exact reads_pure _

lemma rejects_decodeNarrow {p : Primitive} {args : List Expr} {annotated : Bool} (tail : Bytes)
    (hargs : ∀ a ∈ args, Reads part a.spelling a.normal ∨ Rejects part a.spelling err)
    (hbad : ∃ a ∈ args, Rejects part a.spelling err) :
    Rejects (decodeNarrow part args.length annotated)
      (p.code :: (spellingAll args ++ tail)) err := by
  have hmany := rejects_decodeMany hargs hbad
  rw [← spellingAll_eq_flatMap] at hmany
  exact (reads_decodePrimitive p).bind_rejects (hmany.bind _ tail)

lemma reads_decodeWide {p : Primitive} {args : List Expr} {annots : List String}
    (hargs : ∀ a ∈ args, Reads part a.spelling a.normal) (hbody : (spellingAll args).IsShort)
    (hannots : AreAnnots annots) (hshort : (annotText annots).IsShort) :
    Reads (decodeWide part)
      (p.code :: ((spellingAll args).sized ++ (annotText annots).sized))
      (app p (normalAll args) annots true false) := by
  refine (reads_decodePrimitive p).bind ((reads_block hbody).bind ?_)
  rw [fill_of_reads hargs]
  exact (reads_lift (normalAll args)).bind ((reads_decodeAnnots hannots hshort).map _)

lemma rejects_decodeWide {p : Primitive} {args : List Expr} (tail : Bytes)
    (hargs : ∀ a ∈ args, Reads part a.spelling a.normal ∨ Rejects part a.spelling err)
    (hbad : ∃ a ∈ args, Rejects part a.spelling err) (hbody : (spellingAll args).IsShort) :
    Rejects (decodeWide part) (p.code :: ((spellingAll args).sized ++ tail)) err := by
  refine (reads_decodePrimitive p).bind_rejects ((reads_block hbody).bind_rejects ?_)
  rw [fill_of_rejects hargs hbad]
  exact (rejects_lift [] err).bind _ tail

variable {e : Expr}

/-- A node is read when its parts are. -/
lemma reads_node (h : e.IsSpellable) (hargs : ∀ a ∈ e.args, Reads part a.spelling a.normal) :
    Reads (byte >>= decodeNode part) e.spelling e.normal := by
  have hannots := (isWellAnnotated_iff.1 h.annots).1
  have hshort := (hasShortPayloads_iff.1 h.payloads).1
  cases e with
  | literal l u =>
    cases l with
    | int n => exact (reads_byte 0x00).bind ((Zarith.reads_decode n).map int)
    | string s =>
      refine (reads_byte 0x01).bind ((reads_block (hshort _ List.mem_cons_self)).bind_nil ?_)
      rw [Utf8.decode?_encode]
      exact reads_pure (string s)
    | bytes b =>
      exact (reads_byte 0x0a).bind ((reads_block (hshort _ List.mem_cons_self)).map bytes)
  | seq items u =>
    refine (reads_byte 0x02).bind ((reads_block (hshort _ List.mem_cons_self)).bind_nil ?_)
    have hitems : ∀ a ∈ items, Reads part a.spelling a.normal := hargs
    rw [fill_of_reads hitems]
    exact (reads_lift (normalAll items)).map list
  | app p args annots w u =>
    rw [spelling, normal]
    by_cases hwide : w || 2 < args.length
    · rw [payloads, if_pos hwide] at hshort
      rw [if_pos hwide, hwide]
      exact (reads_byte 0x09).bind (reads_decodeWide hargs (hshort _ List.mem_cons_self) hannots
        (hshort _ (by simp)))
    · obtain ⟨hw, hcount⟩ := narrow_iff.1 hwide
      rw [payloads, if_neg hwide] at hshort
      rw [if_neg hwide, Bool.eq_false_of_not_eq_true hwide, ← List.singleton_append]
      refine (reads_byte _).bind ?_
      rw [decodeNode_narrow part hcount]
      refine reads_decodeNarrow hargs hannots fun hne => ?_
      exact hshort _ (by simp [hne])

/-- A node is rejected when one of its parts is, and those before it are read. -/
lemma rejects_node (h : e.IsSpellable)
    (hargs : ∀ a ∈ e.args, Reads part a.spelling a.normal ∨ Rejects part a.spelling err)
    (hbad : ∃ a ∈ e.args, Rejects part a.spelling err) :
    Rejects (byte >>= decodeNode part) e.spelling err := by
  have hshort := (hasShortPayloads_iff.1 h.payloads).1
  cases e with
  | literal l u => simp [args] at hbad
  | seq items u =>
    have hitems : fill part (spellingAll items) = .error err := fill_of_rejects hargs hbad
    have hblock := reads_block (hshort _ List.mem_cons_self)
    refine (reads_byte 0x02).bind_rejects (hblock.bind_rejects_nil ?_)
    rw [hitems]
    exact (rejects_lift [] err).bind _ []
  | app p args annots w u =>
    rw [spelling]
    by_cases hwide : w || 2 < args.length
    · rw [payloads, if_pos hwide] at hshort
      rw [if_pos hwide]
      exact (reads_byte 0x09).bind_rejects
        (rejects_decodeWide _ hargs hbad (hshort _ List.mem_cons_self))
    · obtain ⟨hw, hcount⟩ := narrow_iff.1 hwide
      rw [if_neg hwide, ← List.singleton_append]
      refine (reads_byte _).bind_rejects ?_
      rw [decodeNode_narrow part hcount]
      exact rejects_decodeNarrow _ hargs hbad

/-! ### Reading a tree within a limit -/

lemma decodeWithin_succ (limit levels : Nat) :
    decodeWithin limit (levels + 1) = byte >>= decodeNode (decodeWithin limit levels) := rfl

/-- A tree that is not too high is read back; a tree that is too high is rejected with the limit. -/
theorem reads_or_rejects (limit : Nat) (h : e.IsSpellable) (levels : Nat) :
    (e.height < levels → Reads (decodeWithin limit levels) e.spelling e.normal) ∧
      (levels ≤ e.height →
        Rejects (decodeWithin limit levels) e.spelling (.depthExceeded limit)) := by
  induction e using inductArgs generalizing levels with
  | node e ih =>
    cases levels with
    | zero => exact ⟨fun hlt => absurd hlt (Nat.not_lt_zero _), fun _ => rejects_throw _ _⟩
    | succ levels =>
      rw [decodeWithin_succ]
      constructor
      · intro hlt
        refine reads_node h fun a ha => (ih a ha (h.arg ha) levels).1 ?_
        exact height_le_iff.1 (Nat.le_of_lt_succ hlt) a ha
      · intro hle
        -- some part is too high by itself; whether it is the first one does not matter
        have hdeep : ∃ a ∈ e.args, levels ≤ a.height := by
          by_contra hnone
          push Not at hnone
          exact absurd (height_le_iff.2 hnone) (Nat.not_le.2 hle)
        obtain ⟨a, ha, hdeep⟩ := hdeep
        refine rejects_node h (fun a ha => ?_) ⟨a, ha, (ih a ha (h.arg ha) levels).2 hdeep⟩
        rcases Nat.lt_or_ge a.height levels with hlt | hge
        · exact Or.inl ((ih a ha (h.arg ha) levels).1 hlt)
        · exact Or.inr ((ih a ha (h.arg ha) levels).2 hge)

/-- Reading the spelling of a tree. -/
lemma decode_spelling (h : e.IsSpellable) (limit : Nat) :
    decode limit e.spelling =
      if e.height ≤ limit then .ok e.normal else .error (.depthExceeded limit) := by
  obtain ⟨hread, hreject⟩ := reads_or_rejects limit h (limit + 1)
  rw [decode, runAll, decoder]
  split_ifs with hle
  · have hok := hread (Nat.lt_succ_of_le hle) []
    rw [List.append_nil] at hok
    rw [hok]
  · obtain ⟨left, herror⟩ := hreject (Nat.lt_of_not_le hle) []
    rw [List.append_nil] at herror
    rw [herror]

/-- A tree whose lengths fit their words is written exactly when no annotation is empty or has a
space, and is otherwise refused for such an annotation.  What was written is read back under every
limit: in normal form when the tree is not higher than the limit, as a failure with the limit when
it is higher.  The normal form is the same tree, annotations included. -/
theorem decode_encode (e : Expr) (short : ∀ n ∈ e.nodes, ∀ b ∈ n.payloads, b.length < 2 ^ 32) :
    ((∃ b, encode e = .ok b) ↔ ∀ n ∈ e.nodes, ∀ a ∈ n.annots, a ≠ "" ∧ ' ' ∉ a.toList) ∧
      ((¬ ∃ b, encode e = .ok b) → ∃ n ∈ e.nodes, ∃ a ∈ n.annots, (a = "" ∨ ' ' ∈ a.toList) ∧
        encode e = .error (.invalidAnnot (.malformed a))) ∧
      ∀ b, encode e = .ok b →
        (∀ limit, decode limit b =
          if e.height ≤ limit then .ok e.normal else .error (.depthExceeded limit)) ∧
        same e.normal e := by
  have hshort : e.HasShortPayloads := short
  have hannots : e.IsWellAnnotated ↔ ∀ n ∈ e.nodes, ∀ a ∈ n.annots, a ≠ "" ∧ ' ' ∉ a.toList := by
    simp only [IsWellAnnotated, AreAnnots, isAnnot_iff]
  rw [← hannots]
  by_cases hwell : e.IsWellAnnotated
  · have hok := encode_of_isSpellable ⟨hwell, hshort⟩
    refine ⟨⟨fun _ => hwell, fun _ => ⟨_, hok⟩⟩, fun hno => absurd ⟨_, hok⟩ hno, ?_⟩
    intro b hb
    rw [hok, Except.ok.injEq] at hb
    subst hb
    exact ⟨decode_spelling ⟨hwell, hshort⟩, same_normal e⟩
  · obtain ⟨a, ⟨n, hn, ha, hbad⟩, herror⟩ := encode_of_not_isWellAnnotated hshort hwell
    have hno : ¬ ∃ b, encode e = .ok b := by simp [herror]
    rw [isAnnot_iff, not_and_or, not_not, not_not] at hbad
    exact ⟨iff_of_false hno hwell, fun _ => ⟨n, hn, a, ha, hbad, herror⟩,
      fun b hb => absurd ⟨b, hb⟩ hno⟩

/-- An unpacked pair of two annotations is read back without the mark under the limit one, and not
at all under the limit zero. -/
theorem decode_encode_pair :
    let e := app (.data .pair) [int 1, string "a"] [":p", "@q"] true true
    let b := [9, 7, 0, 0, 0, 8, 0, 1, 1, 0, 0, 0, 1, 97, 0, 0, 0, 5, 58, 112, 32, 64, 113]
    encode e = .ok b ∧
      decode 1 b = .ok (app (.data .pair) [int 1, string "a"] [":p", "@q"] true false) ∧
      decode 0 b = .error (.depthExceeded 0) := by
  intro e b
  have short : ∀ n ∈ e.nodes, ∀ c ∈ n.payloads, c.length < 2 ^ 32 := by decide +kernel
  have hb : encode e = .ok b := by decide +kernel
  obtain ⟨-, -, hread⟩ := decode_encode e short
  exact ⟨hb, (hread b hb).1 1, (hread b hb).1 0⟩

end Michelson.Expr
