/-
# Packing and unpacking

A packed tree starts with its tag byte.  No other packed form is looked at behind this byte, so the
laws of packing are those of the binary form: `unpack_tagged` is the only step in between.  The mark
that unpacking leaves on the root is not written, and the nodes below have none.

The main statement is `unpack_pack`, in both directions.
-/
import Michelson.Packed
import Michelson.Proofs.Expr.Exact

namespace Michelson.Expr

variable {e : Expr}

/-! ### The mark on the root -/

@[simp] lemma args_markUnpacked (e : Expr) : e.markUnpacked.args = e.args := by
  cases e <;> rfl

@[simp] lemma annots_markUnpacked (e : Expr) : e.markUnpacked.annots = e.annots := by
  cases e <;> rfl

@[simp] lemma kind_markUnpacked (e : Expr) : e.markUnpacked.kind = e.kind := by
  rcases e with ⟨_ | _ | _, _⟩ | _ | _ <;> rfl

@[simp] lemma isUnpacked_markUnpacked (e : Expr) : e.markUnpacked.isUnpacked = true := by
  cases e <;> rfl

@[simp] lemma payloads_markUnpacked (e : Expr) : e.markUnpacked.payloads = e.payloads := by
  rcases e with ⟨_ | _ | _, _⟩ | _ | _ <;> rfl

@[simp] lemma spelling_markUnpacked (e : Expr) : e.markUnpacked.spelling = e.spelling := by
  rcases e with ⟨_ | _ | _, _⟩ | _ | _ <;> rfl

lemma same_markUnpacked (e e' : Expr) : same e.markUnpacked e' = same e e' := by
  cases e <;> cases e' <;> rfl

lemma IsSpellable.markUnpacked (h : e.IsSpellable) : e.markUnpacked.IsSpellable := by
  have hannots := (isWellAnnotated_iff.1 h.annots).1
  have hpayloads := (hasShortPayloads_iff.1 h.payloads).1
  exact isSpellable_of_args (by simpa using hannots) (by simpa using hpayloads)
    fun a ha => h.arg (by simpa using ha)

/-- Below the root, no node of an unpacked tree has the mark. -/
lemma isUnpacked_of_mem_args {a n : Expr} (ha : a ∈ e.normal.markUnpacked.args) (hn : n ∈ a.nodes) :
    n.isUnpacked = false := by
  rw [args_markUnpacked, args_normal] at ha
  obtain ⟨a, -, rfl⟩ := List.mem_map.1 ha
  rw [nodes_normal] at hn
  obtain ⟨n, -, rfl⟩ := List.mem_map.1 hn
  exact isUnpacked_normal n

lemma map_kind_nodes_markUnpacked_normal (e : Expr) :
    e.normal.markUnpacked.nodes.map kind = e.nodes.map kind := by
  have hnodes : e.normal.nodes.map kind = e.nodes.map kind := by
    rw [nodes_normal, List.map_map]
    exact List.map_congr_left fun n _ => kind_normal n
  rw [← hnodes, nodes_eq_cons, nodes_eq_cons e.normal, args_markUnpacked, List.map_cons,
    List.map_cons, kind_markUnpacked]

/-! ### Behind the tag byte -/

lemma pack_eq_ok_iff {b : Bytes} :
    pack e = .ok b ↔ e.IsSpellable ∧ b = packedTag :: e.spelling := by
  constructor
  · intro h
    obtain ⟨c, hc, hb⟩ := Except.bind_eq_ok_iff.1 h
    obtain ⟨hspellable, rfl⟩ := encode_eq_ok_iff.1 hc
    cases hb
    exact ⟨hspellable, rfl⟩
  · rintro ⟨hspellable, rfl⟩
    rw [pack, encode_of_isSpellable hspellable]
    rfl

/-- Tagged bytes are read as a tree or not at all. -/
lemma unpack_tagged {c : Bytes} (hc : c ≠ []) (limit : Nat) (u : Bool) :
    unpack limit (literal (.bytes (packedTag :: c)) u) = (decode limit c).map markUnpacked := by
  obtain ⟨x, rest, rfl⟩ := List.exists_cons_of_ne_nil hc
  rfl

lemma isTaggedTree_tagged {c : Bytes} (hc : c ≠ []) :
    isTaggedTree (packedTag :: c) = (decode defaultLimit c).isOk := by
  obtain ⟨x, rest, rfl⟩ := List.exists_cons_of_ne_nil hc
  rfl

/-- Unpacking the packed form of a tree, under any limit. -/
lemma unpack_tagged_spelling (h : e.IsSpellable) (limit : Nat) (u : Bool) :
    unpack limit (literal (.bytes (packedTag :: e.spelling)) u) =
      if e.height ≤ limit then .ok e.normal.markUnpacked else .error (.depthExceeded limit) := by
  rw [unpack_tagged e.spelling_ne_nil, decode_spelling h]
  split <;> rfl

lemma isTaggedTree_tagged_spelling (h : e.IsSpellable) :
    isTaggedTree (packedTag :: e.spelling) ↔ e.height ≤ defaultLimit := by
  rw [isTaggedTree_tagged e.spelling_ne_nil, decode_spelling h]
  split_ifs with hle
  · exact iff_of_true rfl hle
  · exact iff_of_false Bool.false_ne_true hle

/-- What a packed tree unpacks to is written as the tree was. -/
lemma encode_markUnpacked_normal (h : e.IsSpellable) :
    encode e.normal.markUnpacked = encode e := by
  -- the normal form is read from the spelling, so it has this spelling itself
  have hread := decode_spelling h e.height
  rw [if_pos (Nat.le_refl _)] at hread
  obtain ⟨hspelling, hnormal⟩ := decode_eq_ok hread
  rw [encode_of_isSpellable hnormal.spellable.markUnpacked, spelling_markUnpacked, ← hspelling,
    encode_of_isSpellable h]

/-- A readable tree is packed behind the tag byte as it was read, with the mark or without. -/
lemma IsReadable.pack_markUnpacked {levels : Nat} (h : e.IsReadable levels) :
    pack e.markUnpacked = .ok (packedTag :: e.spelling) :=
  pack_eq_ok_iff.2 ⟨h.spellable.markUnpacked, by rw [spelling_markUnpacked]⟩

/-- Packing and unpacking are inverse.  A tree whose annotations can be written is packed exactly
when its lengths fit their words.  The packed bytes count as a tagged tree as long as the tree is
not higher than the limit, and then unpack to the same tree in the same form, marked at the root
only; packed from a tree that is higher, they are refused for their depth.  And whatever tagged
bytes unpack to, under any limit, is packed as those bytes. -/
theorem unpack_pack :
    (∀ e : Expr, (∀ n ∈ e.nodes, ∀ a ∈ n.annots, a ≠ "" ∧ ' ' ∉ a.toList) →
      ((∃ b, pack e = .ok b) ↔ ∀ n ∈ e.nodes, ∀ c ∈ n.payloads, c.length < 2 ^ 32) ∧
      ∀ b, pack e = .ok b →
        (isTaggedTree b ↔ e.height ≤ 1024) ∧
        (e.height ≤ 1024 → ∃ q, unpack defaultLimit (bytes b) = .ok q ∧ same q e ∧
          q.nodes.map kind = e.nodes.map kind ∧ encode q = encode e ∧
          q.isUnpacked ∧ ∀ a ∈ q.args, ∀ n ∈ a.nodes, n.isUnpacked = false) ∧
        (1024 < e.height → unpack defaultLimit (bytes b) = .error (.depthExceeded 1024))) ∧
    ∀ limit c u q, c ≠ [] → unpack limit (literal (.bytes (0x05 :: c)) u) = .ok q →
      pack q = .ok (0x05 :: c) := by
  constructor
  · intro e hannots
    have hwell : e.IsWellAnnotated := by
      intro n hn a ha
      exact isAnnot_iff.2 (hannots n hn a ha)
    have hpacked : (∃ b, pack e = .ok b) ↔ e.HasShortPayloads := by
      constructor
      · rintro ⟨b, hb⟩
        exact (pack_eq_ok_iff.1 hb).1.payloads
      · intro hshort
        exact ⟨_, pack_eq_ok_iff.2 ⟨⟨hwell, hshort⟩, rfl⟩⟩
    refine ⟨hpacked, ?_⟩
    intro b hb
    obtain ⟨h, rfl⟩ := pack_eq_ok_iff.1 hb
    have hunpack := unpack_tagged_spelling h defaultLimit false
    refine ⟨isTaggedTree_tagged_spelling h, ?_, ?_⟩
    · intro hle
      have hwithin : e.height ≤ defaultLimit := hle
      have hsame : same e.normal.markUnpacked e := by rw [same_markUnpacked, same_normal]
      rw [if_pos hwithin] at hunpack
      exact ⟨_, hunpack, hsame, map_kind_nodes_markUnpacked_normal e, encode_markUnpacked_normal h,
        isUnpacked_markUnpacked e.normal, fun a ha n hn => isUnpacked_of_mem_args ha hn⟩
    · intro hlt
      have hbeyond : ¬ e.height ≤ defaultLimit := Nat.not_le.2 hlt
      rwa [if_neg hbeyond] at hunpack
  · -- what was read was the spelling of the tree, and the mark does not change the spelling
    intro limit c u q hc hunpack
    have htagged := unpack_tagged hc limit u
    rw [packedTag, hunpack] at htagged
    obtain ⟨e, hread, rfl⟩ := Except.map_eq_ok_iff.1 htagged.symm
    obtain ⟨rfl, he⟩ := decode_eq_ok hread
    exact he.pack_markUnpacked

/-- A pair in the wide form whose second part was marked as unpacked: after unpacking the mark is on
the pair alone. -/
theorem unpack_pack_pair :
    let e := app (.data .pair) [bytes [97], seq [int 1] true] ["%x"] true false
    let q := app (.data .pair) [bytes [97], list [int 1]] ["%x"] true true
    let b := [5, 9, 7, 0, 0, 0, 13, 10, 0, 0, 0, 1, 97, 2, 0, 0, 0, 2, 0, 1, 0, 0, 0, 2, 37, 120]
    pack e = .ok b ∧ isTaggedTree b ∧ unpack 2 (literal (.bytes b) true) = .ok q ∧
      pack q = .ok b := by
  intro e q b
  obtain ⟨hforward, hback⟩ := unpack_pack
  have hannots : ∀ n ∈ e.nodes, ∀ a ∈ n.annots, a ≠ "" ∧ ' ' ∉ a.toList := by decide +kernel
  have hpack : pack e = .ok b := by decide +kernel
  have hheight : e.height ≤ 1024 := by decide +kernel
  obtain ⟨-, hunpack⟩ := hforward e hannots
  have hread : unpack 2 (literal (.bytes b) true) = .ok q := by rfl
  exact ⟨hpack, (hunpack b hpack).1.2 hheight, hread, hback 2 b.tail true q (by decide) hread⟩

end Michelson.Expr
