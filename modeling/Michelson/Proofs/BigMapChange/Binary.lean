/-
# Changes of big maps in bytes

The bytes of a list of changes are those of its members one after the other, with nothing between
them.  A change marks its own end, since its number takes four bytes, its kind one, and its payload
is a tree; so the changes are read back one by one (`decodeAll_of_encodeAll`).  The number of a map
that does not fit its word, or a length that does not, is all that stands in the way of writing them
(`encodeAll_isOk_iff`).
-/
import Michelson.Proofs.BigMapChange.Parts
import Michelson.Proofs.Script.Framing

namespace Michelson

open Decoder

/-! ### Signed words -/

namespace Bytes

lemma length_ofInt32 (i : Int) : (ofInt32 i).length = 4 :=
  length_word _

lemma toNat_ofInt32 (i : Int) : (toNat (ofInt32 i) : Int) = i % 0x100000000 := by
  have hlt : (i % 0x100000000).toNat < 0x100000000 := by omega
  rw [ofInt32, toNat_word hlt]
  exact Int.toNat_of_nonneg (Int.emod_nonneg i (by decide))

/-- A number of 32 bits is read back from its word, the sign included. -/
lemma toInt32_ofInt32 {i : Int} (h : isInt32 i) : toInt32 (ofInt32 i) = i := by
  rw [isInt32, Bool.and_eq_true, decide_eq_true_iff, decide_eq_true_iff] at h
  calc toInt32 (ofInt32 i) = (i % 0x100000000).bmod 0x100000000 := by
        unfold toInt32
        simp only [toNat_ofInt32]
    _ = i.bmod 0x100000000 := Int.emod_bmod i 0x100000000
    _ = i := Int.bmod_eq_of_le (by omega) (by omega)

end Bytes

lemma Decoder.reads_take_ofInt32 (i : Int) :
    Reads (take 4) (Bytes.ofInt32 i) (Bytes.ofInt32 i) := by
  have h := reads_take (Bytes.ofInt32 i)
  rwa [Bytes.length_ofInt32] at h

lemma ContractDecoder.reads_ofDecoder {α : Type} {d : Decoder α} {b : Bytes} {a : α}
    (h : Reads d b a) : Reads (ContractDecoder.ofDecoder d) b a :=
  fun rest => ContractDecoder.ofDecoder_of_ok (h rest)

lemma ChangeKind.ofCode?_code (a : ChangeKind) : ChangeKind.ofCode? a.code = some a := by
  cases a <;> rfl

/-! ### Payloads -/

namespace Expr

variable {p : Primitive} {args : List Expr}

lemma apply_of_length_le (h : args.length ≤ 2) : apply p args = app p args [] false false := by
  rw [apply, decide_eq_false (Nat.not_lt.2 h)]

/-- An application of at most two arguments adds no lengths and no annotations to theirs. -/
lemma isSpellable_apply_iff (h : args.length ≤ 2) :
    (apply p args).IsSpellable ↔ ∀ a ∈ args, a.IsSpellable := by
  rw [apply_of_length_le h]
  constructor
  · intro hspell a ha
    exact hspell.arg ha
  · intro hargs
    refine isSpellable_of_args (by simp [annots, AreAnnots]) ?_ hargs
    rw [payloads, if_neg (narrow_iff.2 ⟨rfl, h⟩)]
    simp

lemma isSpellable_int (n : Int) : (int n).IsSpellable :=
  isSpellable_of_args (by simp [int, annots, AreAnnots]) (by simp [int, payloads])
    (by simp [int, Expr.args])

lemma normal_apply (h : args.length ≤ 2) :
    (apply p args).normal = app p (args.map normal) [] false false := by
  rw [apply_of_length_le h, normal, normalAll_eq_map, Bool.false_or,
    decide_eq_false (Nat.not_lt.2 h)]

end Expr

namespace BigMapChange

variable {e : BigMapChange}

/-- The payload of a change: the trees of the change, or the numbers of the maps of a copy. -/
lemma IsBuilt.exists_payload (h : e.IsBuilt) :
    ∃ d args, e.payload = .ok (.apply (.data d) args) ∧ args.length ≤ 2 ∧
      (args = e.trees ∨ e.trees = [] ∧ ∀ a ∈ args, ∃ n, a = .int n) ∧
      ofPayload? e.action e.id (.app (.data d) (args.map Expr.normal) [] false false) =
        some (e.mapTrees Expr.normal).dropKeyHash := by
  induction h with
  | update id key value hid =>
    exact ⟨.pair, [key, value], rfl, Nat.le_refl 2, Or.inl rfl, rfl⟩
  | remove id key hid =>
    cases key with
    | none => exact ⟨.none, [], rfl, Nat.zero_le 2, Or.inl rfl, rfl⟩
    | some key => exact ⟨.some, [key], rfl, Nat.le_succ 1, Or.inl rfl, rfl⟩
  | alloc id keyType valueType hid =>
    exact ⟨.pair, [keyType, valueType], rfl, Nat.le_refl 2, Or.inl rfl, rfl⟩
  | copy source dest hsource hdest =>
    have hmap : ∀ {n : Int}, isInt64 n → mapId? (Expr.int n).normal = some n := by
      intro n hn
      exact Option.filter_eq_some_iff.2 ⟨rfl, hn⟩
    refine ⟨.pair, [.int source, .int dest], rfl, Nat.le_refl 2, Or.inr ⟨rfl, by simp⟩, ?_⟩
    simp only [ofPayload?, pairParts?, List.map_cons, List.map_nil, Option.bind_some,
      hmap hsource, hmap hdest, Option.bind_eq_bind]
    rfl
  | addKeyHash hash e h ih => exact ih

/-! ### One change -/

/-- The bytes of a change, whatever the numbers of its maps and its trees are. -/
def spelling (e : BigMapChange) : Bytes :=
  match e.payload with
  | .ok p => Bytes.ofInt32 e.id ++ e.action.code :: p.spelling
  | .error _ => []

/-- A change is written exactly when its number fits its word and its payload can be written. -/
lemma encode_eq_ok_iff {b : Bytes} :
    e.encode = .ok b ↔
      isInt32 e.id ∧ ∃ p, e.payload = .ok p ∧ p.IsSpellable ∧ b = e.spelling := by
  unfold encode
  by_cases hid : isInt32 e.id
  · rw [hid, Bool.not_true, if_neg Bool.false_ne_true]
    dsimp only
    cases hpayload : e.payload with
    | error fault => simp
    | ok p =>
      rw [Except.ok_bind]
      cases hencode : p.encode with
      | error fault =>
        have hspell : ¬ p.IsSpellable := by
          intro hspell
          rw [Expr.encode_of_isSpellable hspell] at hencode
          cases hencode
        simp [hspell, throw, throwThe, MonadExceptOf.throw]
      | ok tail =>
        obtain ⟨hspell, rfl⟩ := Expr.encode_eq_ok_iff.1 hencode
        simp [hspell, spelling, hpayload, pure, Except.pure, eq_comm]
  · rw [Bool.eq_false_of_not_eq_true hid, Bool.not_false, if_pos rfl]
    simp [throw, throwThe, MonadExceptOf.throw]

/-- The payload of a change can be written exactly when its trees can. -/
lemma IsBuilt.encode_isOk_iff (h : e.IsBuilt) :
    (∃ b, e.encode = .ok b) ↔ isInt32 e.id ∧ ∀ t ∈ e.trees, t.IsSpellable := by
  obtain ⟨d, args, hpayload, hlength, hargs, -⟩ := h.exists_payload
  have hspell : (∀ a ∈ args, a.IsSpellable) ↔ ∀ t ∈ e.trees, t.IsSpellable := by
    rcases hargs with rfl | ⟨hnone, hints⟩
    · exact Iff.rfl
    · rw [hnone]
      refine iff_of_true (fun a ha => ?_) (by simp)
      obtain ⟨n, rfl⟩ := hints a ha
      exact Expr.isSpellable_int n
  simp only [encode_eq_ok_iff, hpayload, Except.ok.injEq, exists_eq_left',
    Expr.isSpellable_apply_iff hlength, hspell]
  simp

/-- A change is read back in front of whatever follows. -/
lemma IsBuilt.reads (h : e.IsBuilt) {b : Bytes} (hb : e.encode = .ok b)
    (hheight : ∀ t ∈ e.trees, t.height < Expr.defaultLimit) :
    Reads decoder e.spelling (e.mapTrees Expr.normal).dropKeyHash := by
  obtain ⟨d, args, hpayload, hlength, hargs, hshape⟩ := h.exists_payload
  obtain ⟨hid, p, hp, hspell, -⟩ := encode_eq_ok_iff.1 hb
  obtain rfl : Expr.apply (.data d) args = p := Except.ok.inj (hpayload.symm.trans hp)
  have hlow : (Expr.apply (.data d) args).height < Expr.defaultLimit + 1 := by
    refine Nat.lt_succ_of_le (Expr.height_le_iff.2 fun a ha => ?_)
    rcases hargs with rfl | ⟨-, hints⟩
    · exact hheight a ha
    · obtain ⟨n, rfl⟩ := hints a ha
      exact Nat.zero_lt_succ _
  have htree := (Expr.reads_or_rejects Expr.defaultLimit hspell _).1 hlow
  rw [Expr.normal_apply hlength] at htree
  have hspelling : e.spelling =
      Bytes.ofInt32 e.id ++ ([e.action.code] ++ (Expr.apply (.data d) args).spelling) := by
    rw [spelling, hpayload]
    rfl
  rw [hspelling]
  refine (ContractDecoder.reads_ofDecoder (reads_take_ofInt32 e.id)).bind
    ((ContractDecoder.reads_ofDecoder (reads_byte e.action.code)).bind ?_)
  rw [ChangeKind.ofCode?_code, Bytes.toInt32_ofInt32 hid]
  refine (ContractDecoder.reads_ofDecoder htree).bind_nil ?_
  rw [hshape]
  exact reads_pure _

/-! ### Lists of changes -/

lemma encodeAll_cons_eq_ok_iff {rest : List BigMapChange} {b : Bytes} :
    encodeAll (e :: rest) = .ok b ↔
      ∃ head tail, e.encode = .ok head ∧ encodeAll rest = .ok tail ∧ b = head ++ tail := by
  rw [encodeAll, Except.bind_eq_ok_iff]
  constructor
  · rintro ⟨head, hhead, h⟩
    obtain ⟨tail, htail, h⟩ := Except.bind_eq_ok_iff.1 h
    cases h
    exact ⟨head, tail, hhead, htail, rfl⟩
  · rintro ⟨head, tail, hhead, htail, rfl⟩
    exact ⟨head, hhead, by rw [htail]; rfl⟩

variable {changes : List BigMapChange}

lemma encodeAll_isOk_iff :
    (∃ b, encodeAll changes = .ok b) ↔ ∀ e ∈ changes, ∃ b, e.encode = .ok b := by
  induction changes with
  | nil => simp [encodeAll]
  | cons e rest ih =>
    simp only [encodeAll_cons_eq_ok_iff, List.forall_mem_cons, ← ih]
    constructor
    · rintro ⟨b, head, tail, hhead, htail, -⟩
      exact ⟨⟨head, hhead⟩, tail, htail⟩
    · rintro ⟨⟨head, hhead⟩, tail, htail⟩
      exact ⟨_, head, tail, hhead, htail, rfl⟩

lemma eq_flatMap_of_encodeAll {b : Bytes} (h : encodeAll changes = .ok b) :
    b = changes.flatMap spelling := by
  induction changes generalizing b with
  | nil =>
    cases h
    rfl
  | cons e rest ih =>
    obtain ⟨head, tail, hhead, htail, rfl⟩ := encodeAll_cons_eq_ok_iff.1 h
    obtain ⟨-, p, -, -, rfl⟩ := encode_eq_ok_iff.1 hhead
    rw [List.flatMap_cons, ← ih htail]

/-- The bytes of a list of changes are read back change by change. -/
lemma decodeAll_of_encodeAll {b : Bytes} (hbuilt : ∀ e ∈ changes, e.IsBuilt)
    (hheight : ∀ e ∈ changes, ∀ t ∈ e.trees, t.height < Expr.defaultLimit)
    (h : encodeAll changes = .ok b) :
    decodeAll b = .ok (changes.map fun e => (e.mapTrees Expr.normal).dropKeyHash) := by
  have hencode := encodeAll_isOk_iff.1 ⟨b, h⟩
  rw [decodeAll, eq_flatMap_of_encodeAll h]
  refine items_of_reads (fun e he => ?_) (fun e he => ?_) (Nat.le_refl _)
  · obtain ⟨c, hc⟩ := hencode e he
    obtain ⟨-, p, hp, -, -⟩ := encode_eq_ok_iff.1 hc
    simp [spelling, hp]
  · obtain ⟨c, hc⟩ := hencode e he
    exact (hbuilt e he).reads hc (hheight e he)

end BigMapChange

end Michelson
