/-
# The shapes of payloads

What a change of a big map says stands in its payload, a tree of any shape as far as the bytes go.
`Says` lists the shapes that have a meaning, with their meanings.  The reader takes these, and for a
removal it takes a little more (`Misreads`): of the arguments of `Some` it only looks at the first,
which need not be there, and it does not look at those of `None`.  Any other shape ends the reading
of the whole stream.

The main statement is `decodeAll_eq_ok_iff_entries`; `decodeAll_misreads_removals` shows three
removals that do not have the shape of one.
-/
import Michelson.Proofs.BigMapChange.Binary

namespace Michelson

open Decoder

namespace Bytes

lemma isInt32_toInt32 (b : Bytes) : isInt32 (toInt32 b) := by
  have hle : -((0x100000000 : Nat) / 2 : Int) ≤ toInt32 b := Int.le_bmod (by omega)
  have hlt : toInt32 b < (0x100000000 + 1) / 2 := Int.bmod_lt (by omega)
  simp only [isInt32, Bool.and_eq_true, decide_eq_true_eq]
  omega

/-- Four bytes are the word of the signed number that they spell. -/
lemma ofInt32_toInt32 {b : Bytes} (h : b.length = 4) : ofInt32 (toInt32 b) = b := by
  have hmod : (toInt32 b % 0x100000000).toNat = toNat b := by
    have hlt := toNat_lt_of_length h
    have hbmod : toInt32 b % 0x100000000 = (toNat b : Int) % 0x100000000 := Int.bmod_emod
    omega
  rw [ofInt32, hmod, word_toNat h]

end Bytes

lemma ChangeKind.code_of_ofCode? {c : UInt8} {a : ChangeKind} (h : ChangeKind.ofCode? c = some a) :
    a.code = c := by
  have hcode : (a.code == c) = true := List.find?_some (p := fun a => ChangeKind.code a == c) h
  exact eq_of_beq hcode

namespace BigMapChange

/-! ### What payloads say -/

/-- What a payload of the right shape says of the map with this number: an update and an allocation
have a pair, a removal has the key or nothing, and a copy has a pair of the numbers of two maps.  The
annotations of the payload and the form it is written in do not matter. -/
inductive Says (id : Int) : ChangeKind → Expr → BigMapChange → Prop
  | update (key value : Expr) (annots : List String) (w u : Bool) :
    Says id .update (.app (.data .pair) [key, value] annots w u) (update id key value)
  | removeKey (key : Expr) (annots : List String) (w u : Bool) :
    Says id .remove (.app (.data .some) [key] annots w u) (remove id (some key))
  | removeAll (annots : List String) (w u : Bool) :
    Says id .remove (.app (.data .none) [] annots w u) (remove id none)
  | alloc (keyType valueType : Expr) (annots : List String) (w u : Bool) :
    Says id .alloc (.app (.data .pair) [keyType, valueType] annots w u) (alloc id keyType valueType)
  | copy {source dest : Int} (hsource : isInt64 source) (hdest : isInt64 dest) (us ud : Bool)
      (annots : List String) (w u : Bool) :
    Says id .copy
      (.app (.data .pair) [.literal (.int source) us, .literal (.int dest) ud] annots w u)
      { copy source dest with id }

/-- What the reader takes a removal for that has another number of arguments than its shape: `Some`
without an argument for the removal of the whole map, `Some` with more than one for the removal of
the first, and `None` with arguments for the removal of the whole map. -/
inductive Misreads (id : Int) : ChangeKind → Expr → BigMapChange → Prop
  | some {args : List Expr} (h : args.length ≠ 1) (annots : List String) (w u : Bool) :
    Misreads id .remove (.app (.data .some) args annots w u) (remove id args.head?)
  | none {args : List Expr} (h : args ≠ []) (annots : List String) (w u : Bool) :
    Misreads id .remove (.app (.data .none) args annots w u) (remove id none)

variable {id : Int} {kind : ChangeKind} {payload : Expr} {e : BigMapChange}

lemma pairParts?_eq_some_iff {a b : Expr} :
    pairParts? payload = some (a, b) ↔
      ∃ annots w u, payload = .app (.data .pair) [a, b] annots w u := by
  unfold pairParts?
  split
  case h_1 a' b' annots w u => simp
  case h_2 hno =>
    refine iff_of_false (by simp) ?_
    rintro ⟨annots, w, u, rfl⟩
    exact hno _ _ _ _ _ rfl

lemma mapId?_eq_some_iff {n : Int} :
    mapId? payload = some n ↔ isInt64 n ∧ ∃ u, payload = .literal (.int n) u := by
  have hint : payload.int? = some n ↔ ∃ u, payload = .literal (.int n) u := by
    rcases payload with ⟨l, u⟩ | _ | _
    · cases l <;> simp [Expr.int?]
    · simp [Expr.int?]
    · simp [Expr.int?]
  rw [mapId?, Option.filter_eq_some_iff, hint, and_comm]

/-- The reader takes the payloads that say something, and the removals that it misreads. -/
lemma ofPayload?_eq_some_iff :
    ofPayload? kind id payload = some e ↔ Says id kind payload e ∨ Misreads id kind payload e := by
  constructor
  · intro h
    cases kind with
    | update =>
      obtain ⟨⟨key, value⟩, hpair, rfl⟩ := Option.map_eq_some_iff.1 h
      obtain ⟨annots, w, u, rfl⟩ := pairParts?_eq_some_iff.1 hpair
      exact Or.inl (.update key value annots w u)
    | alloc =>
      obtain ⟨⟨keyType, valueType⟩, hpair, rfl⟩ := Option.map_eq_some_iff.1 h
      obtain ⟨annots, w, u, rfl⟩ := pairParts?_eq_some_iff.1 hpair
      exact Or.inl (.alloc keyType valueType annots w u)
    | copy =>
      obtain ⟨⟨a, b⟩, hpair, hids⟩ := Option.bind_eq_some_iff.1 h
      obtain ⟨source, hsource, hbehind⟩ := Option.bind_eq_some_iff.1 hids
      obtain ⟨dest, hdest, hcopy⟩ := Option.bind_eq_some_iff.1 hbehind
      cases hcopy
      obtain ⟨annots, w, u, rfl⟩ := pairParts?_eq_some_iff.1 hpair
      obtain ⟨hs, us, rfl⟩ := mapId?_eq_some_iff.1 hsource
      obtain ⟨hd, ud, rfl⟩ := mapId?_eq_some_iff.1 hdest
      exact Or.inl (.copy hs hd us ud annots w u)
    | remove =>
      simp only [ofPayload?] at h
      split at h
      case h_1 args annots w u =>
        cases h
        by_cases hone : args.length = 1
        · obtain ⟨key, rfl⟩ := List.length_eq_one_iff.1 hone
          exact Or.inl (.removeKey key annots w u)
        · exact Or.inr (.some hone annots w u)
      case h_2 args annots w u =>
        cases h
        by_cases hnil : args = []
        · subst hnil
          exact Or.inl (.removeAll annots w u)
        · exact Or.inr (.none hnil annots w u)
      case h_3 => cases h
  · rintro (h | h)
    · cases h with
      | update key value annots w u => rfl
      | removeKey key annots w u => rfl
      | removeAll annots w u => rfl
      | alloc keyType valueType annots w u => rfl
      | copy hsource hdest us ud annots w u =>
        have hid : ∀ {n : Int} (u : Bool), isInt64 n → mapId? (.literal (.int n) u) = some n :=
          fun u hn => mapId?_eq_some_iff.2 ⟨hn, u, rfl⟩
        simp only [ofPayload?, pairParts?, Option.bind_some, Option.bind_eq_bind, hid _ hsource,
          hid _ hdest]
        rfl
    · cases h with
      | some h annots w u => rfl
      | none h annots w u => rfl

/-- What is misread has no meaning of its own. -/
lemma Misreads.not_says {e' : BigMapChange} (h : Misreads id kind payload e) :
    ¬ Says id kind payload e' := by
  intro hsays
  cases h with
  | some h annots w u =>
    cases hsays
    exact h rfl
  | none h annots w u =>
    cases hsays
    exact h rfl

/-! ### The entries of a stream -/

/-- A change as its bytes give it, before its shape is looked at: the number of the map, the kind of
change and the bytes of the payload, which are those of a tree. -/
structure Entry where
  /-- The number of the map. -/
  id : Int
  /-- The kind of change. -/
  kind : ChangeKind
  /-- The bytes of the payload. -/
  body : Bytes
  /-- The payload. -/
  payload : Expr
  /-- The number has 32 bits. -/
  isInt32_id : isInt32 id
  /-- The bytes of the payload spell it. -/
  decode_body : Expr.decode Expr.defaultLimit body = .ok payload

namespace Entry

/-- The bytes of an entry. -/
def bytes (x : Entry) : Bytes := Bytes.ofInt32 x.id ++ x.kind.code :: x.body

/-- The payload has the shape of the kind of change, and this change is what it says. -/
def Says (x : Entry) (e : BigMapChange) : Prop := BigMapChange.Says x.id x.kind x.payload e

/-- The payload has the wrong number of arguments for a removal, and this change is what it is taken
for. -/
def Misreads (x : Entry) (e : BigMapChange) : Prop := BigMapChange.Misreads x.id x.kind x.payload e

/-- The change that the reader makes of an entry. -/
def change? (x : Entry) : Option BigMapChange := ofPayload? x.kind x.id x.payload

lemma change?_eq_some_iff {x : Entry} : x.change? = some e ↔ x.Says e ∨ x.Misreads e :=
  ofPayload?_eq_some_iff

/-- An entry and what stands behind it can be told apart. -/
lemma bytes_append_inj {x y : Entry} {rest rest' : Bytes}
    (h : x.bytes ++ rest = y.bytes ++ rest') : x = y ∧ rest = rest' := by
  obtain ⟨id, kind, body, payload, hid, hbody⟩ := x
  obtain ⟨id', kind', body', payload', hid', hbody'⟩ := y
  simp only [bytes, List.append_assoc, List.cons_append] at h
  obtain ⟨hword, htail⟩ := List.append_inj h (by rw [Bytes.length_ofInt32, Bytes.length_ofInt32])
  obtain ⟨hcode, htail⟩ := List.cons.inj htail
  obtain ⟨rfl, hreadable⟩ := Expr.decode_eq_ok_iff.1 hbody
  obtain ⟨rfl, hreadable'⟩ := Expr.decode_eq_ok_iff.1 hbody'
  obtain ⟨rfl, rfl⟩ := Expr.spelling_append_inj hreadable hreadable' htail
  obtain rfl : id = id' := by
    rw [← Bytes.toInt32_ofInt32 hid, hword, Bytes.toInt32_ofInt32 hid']
  obtain rfl : kind = kind' := by
    rw [← Option.some_inj, ← ChangeKind.ofCode?_code, hcode, ChangeKind.ofCode?_code]
  exact ⟨rfl, rfl⟩

lemma bytes_ne_nil (x : Entry) : x.bytes ≠ [] := by
  simp [bytes]

/-- An entry is read in front of anything, and then its shape decides. -/
lemma decoder_bytes (x : Entry) (rest : Bytes) :
    decoder (x.bytes ++ rest) =
      match x.change? with
      | some e => .ok e rest
      | none => .error (.shape (.changePayload x.kind x.payload)) rest := by
  obtain ⟨hbody, hreadable⟩ := Expr.decode_eq_ok_iff.1 x.decode_body
  have hid := ContractDecoder.reads_ofDecoder (reads_take_ofInt32 x.id)
    (x.kind.code :: (x.body ++ rest))
  have hcode := ContractDecoder.reads_ofDecoder (reads_byte x.kind.code) (x.body ++ rest)
  have hpayload := ContractDecoder.ofDecoder_of_ok (Expr.decoder_eq_ok_iff.2
    ⟨by rw [hbody], hreadable⟩ : Expr.decoder Expr.defaultLimit (x.body ++ rest) = .ok x.payload rest)
  rw [List.singleton_append] at hcode
  rw [bytes, List.append_assoc, List.cons_append, decoder, bind_apply_of_ok hid,
    bind_apply_of_ok hcode, ChangeKind.ofCode?_code]
  dsimp only
  rw [bind_apply_of_ok hpayload, Bytes.toInt32_ofInt32 x.isInt32_id, ← change?]
  cases x.change? <;> rfl

/-- Whatever is read as a change is an entry. -/
lemma exists_of_decoder {b rest : Bytes} (h : decoder b = .ok e rest) :
    ∃ x : Entry, b = x.bytes ++ rest ∧ x.change? = some e := by
  obtain ⟨word, mid, hword, hbehind⟩ := bind_eq_ok_iff.1 h
  obtain ⟨rfl, hlength⟩ := take_eq_ok_iff.1 (ContractDecoder.ofDecoder_eq_ok_iff.1 hword)
  obtain ⟨code, mid', hcode, htail⟩ := bind_eq_ok_iff.1 hbehind
  obtain rfl := byte_eq_ok_iff.1 (ContractDecoder.ofDecoder_eq_ok_iff.1 hcode)
  cases hkind : ChangeKind.ofCode? code with
  | none =>
    rw [hkind] at htail
    exact absurd htail throw_ne_ok
  | some kind =>
    rw [hkind] at htail
    obtain ⟨payload, mid'', hpayload, hshape⟩ := bind_eq_ok_iff.1 htail
    obtain ⟨rfl, hreadable⟩ :=
      Expr.decoder_eq_ok_iff.1 (ContractDecoder.ofDecoder_eq_ok_iff.1 hpayload)
    cases hchange : ofPayload? kind (Bytes.toInt32 word) payload with
    | none =>
      rw [hchange] at hshape
      exact absurd hshape throw_ne_ok
    | some e' =>
      rw [hchange] at hshape
      obtain ⟨rfl, rfl⟩ := pure_eq_ok_iff.1 hshape
      have hid := Bytes.isInt32_toInt32 word
      have hbytes := Bytes.ofInt32_toInt32 hlength
      generalize Bytes.toInt32 word = id at hid hbytes hchange
      refine ⟨⟨id, kind, payload.spelling, payload, hid,
        Expr.decode_eq_ok_iff.2 ⟨rfl, hreadable⟩⟩, ?_, hchange⟩
      rw [bytes, hbytes, ChangeKind.code_of_ofCode? hkind, List.append_assoc,
        List.cons_append]

end Entry

/-! ### Streams -/

variable {entries : List Entry} {changes : List BigMapChange} {b : Bytes}

/-- Entries that are taken for changes are read one by one in front of whatever follows. -/
lemma items_entries (h : List.Forall₂ (fun x e => x.change? = some e) entries changes)
    (stuck : ContractFault) (fuel : Nat) (rest : Bytes) :
    items stuck decoder (entries.length + fuel) (entries.flatMap Entry.bytes ++ rest) =
      (items stuck decoder fuel rest).map (changes ++ ·) := by
  induction h with
  | nil => cases h : items stuck decoder fuel rest <;> simp [h, Except.map]
  | @cons x e entries changes hx _ ih =>
    have hread := x.decoder_bytes (entries.flatMap Entry.bytes ++ rest)
    rw [hx] at hread
    obtain ⟨y, tail, hy⟩ := List.exists_cons_of_ne_nil x.bytes_ne_nil
    have hfuel : (x :: entries).length + fuel = entries.length + fuel + 1 := by
      rw [List.length_cons]
      omega
    rw [List.flatMap_cons, List.append_assoc, hfuel]
    rw [hy, List.cons_append] at hread ⊢
    simp only [items, hread, ih, Except.map_map, List.cons_append]

lemma length_le_length_flatMap_bytes (entries : List Entry) :
    entries.length ≤ (entries.flatMap Entry.bytes).length := by
  induction entries with
  | nil => exact Nat.zero_le _
  | cons x entries ih =>
    have hpos := List.length_pos_of_ne_nil x.bytes_ne_nil
    rw [List.flatMap_cons, List.length_append, List.length_cons]
    omega

/-- A stream that is read is one of entries that are taken for the changes. -/
lemma exists_entries_of_items {stuck : ContractFault} {fuel : Nat}
    (h : items stuck decoder fuel b = .ok changes) :
    ∃ entries : List Entry, b = entries.flatMap Entry.bytes ∧
      List.Forall₂ (fun x e => x.change? = some e) entries changes := by
  induction fuel generalizing b changes with
  | zero =>
    cases b with
    | nil =>
      cases h
      exact ⟨[], rfl, .nil⟩
    | cons y b => cases h
  | succ fuel ih =>
    cases b with
    | nil =>
      cases h
      exact ⟨[], rfl, .nil⟩
    | cons y b =>
      rw [items] at h
      split at h
      case h_2 => cases h
      case h_1 e rest hread =>
        obtain ⟨later, hlater, rfl⟩ := Except.map_eq_ok_iff.1 h
        obtain ⟨x, hx, hchange⟩ := Entry.exists_of_decoder hread
        obtain ⟨entries, rfl, hall⟩ := ih hlater
        exact ⟨x :: entries, hx, .cons hchange hall⟩

/-- A stream has one list of entries. -/
lemma flatMap_bytes_injective :
    Function.Injective fun entries : List Entry => entries.flatMap Entry.bytes := by
  intro entries
  induction entries with
  | nil =>
    intro entries' h
    cases entries' with
    | nil => rfl
    | cons y entries' =>
      have hy : y.bytes = [] := (List.append_eq_nil_iff.1 h.symm).1
      exact absurd hy y.bytes_ne_nil
  | cons x entries ih =>
    intro entries' h
    cases entries' with
    | nil =>
      have hx : x.bytes = [] := (List.append_eq_nil_iff.1 h).1
      exact absurd hx x.bytes_ne_nil
    | cons y entries' =>
      obtain ⟨rfl, htail⟩ := Entry.bytes_append_inj h
      rw [ih htail]

/-- A byte string is read as changes exactly when it is a stream of entries that are taken for them.
-/
lemma decodeAll_eq_ok_iff :
    decodeAll b = .ok changes ↔ ∃ entries : List Entry, b = entries.flatMap Entry.bytes ∧
      List.Forall₂ (fun x e => x.change? = some e) entries changes := by
  constructor
  · exact exists_entries_of_items
  · rintro ⟨entries, rfl, hall⟩
    obtain ⟨fuel, hfuel⟩ := Nat.exists_eq_add_of_le (length_le_length_flatMap_bytes entries)
    have hrun := items_entries hall (.core .shortBuffer) fuel []
    rw [List.append_nil, ← hfuel] at hrun
    rw [decodeAll, hrun]
    cases fuel <;> simp [items, Except.map]

/-- An entry that is taken for no change ends the reading. -/
lemma decodeAll_of_refused (hall : List.Forall₂ (fun x e => x.change? = some e) entries changes)
    {x : Entry} (hx : x.change? = none) (rest : Bytes) :
    decodeAll (entries.flatMap Entry.bytes ++ x.bytes ++ rest) =
      .error (.shape (.changePayload x.kind x.payload)) := by
  have hread := x.decoder_bytes rest
  rw [hx] at hread
  obtain ⟨y, tail, hy⟩ := List.exists_cons_of_ne_nil x.bytes_ne_nil
  rw [hy, List.cons_append] at hread
  -- the fuel is enough for the entries in front and one more
  have hle := length_le_length_flatMap_bytes entries
  obtain ⟨fuel, hfuel⟩ : ∃ fuel, (entries.flatMap Entry.bytes ++ x.bytes ++ rest).length =
      entries.length + (fuel + 1) := by
    simp only [List.length_append, hy, List.length_cons]
    exact ⟨(entries.flatMap Entry.bytes).length - entries.length + tail.length + rest.length,
      by omega⟩
  rw [decodeAll, hfuel, List.append_assoc, items_entries hall, hy, List.cons_append]
  simp only [items, hread, Except.map]

/-- The entries of a stream that is read say what the changes are exactly when none of them is misread.
-/
lemma forall₂_says_iff
    (hall : List.Forall₂ (fun x e => x.Says e ∨ x.Misreads e) entries changes) :
    List.Forall₂ Entry.Says entries changes ↔ ∀ x ∈ entries, ∀ e, ¬ x.Misreads e := by
  induction hall with
  | nil => exact iff_of_true .nil fun x hx => absurd hx List.not_mem_nil
  | @cons x e entries changes hx _ ih =>
    rw [List.forall₂_cons, List.forall_mem_cons, ih]
    refine and_congr_left fun _ => ⟨fun hsays e' hmisreads => ?_, fun hno => ?_⟩
    · exact hmisreads.not_says hsays
    · exact hx.resolve_right (hno e)

/-- A byte string is read as changes exactly when it is a stream of entries of which each has the
shape of its kind of change, or is a removal with another number of arguments.  The entries are
those of no other stream.  They say what the changes are exactly when there is no such removal among
them.  The first entry of any other shape ends the reading, whatever stands behind it. -/
theorem decodeAll_eq_ok_iff_entries (b : Bytes) :
    (∀ changes, decodeAll b = .ok changes ↔
      ∃ entries : List Entry, b = entries.flatMap Entry.bytes ∧
        List.Forall₂ (fun x e => x.Says e ∨ x.Misreads e) entries changes) ∧
      (∀ entries entries' : List Entry,
        b = entries.flatMap Entry.bytes → b = entries'.flatMap Entry.bytes → entries = entries') ∧
      (∀ (entries : List Entry) (changes : List BigMapChange), b = entries.flatMap Entry.bytes →
        decodeAll b = .ok changes →
        (List.Forall₂ Entry.Says entries changes ↔ ∀ x ∈ entries, ∀ e, ¬ x.Misreads e)) ∧
      ∀ (entries : List Entry) (changes : List BigMapChange) (x : Entry) (rest : Bytes),
        b = entries.flatMap Entry.bytes ++ x.bytes ++ rest →
        List.Forall₂ (fun x e => x.Says e ∨ x.Misreads e) entries changes →
        (∀ e, ¬ x.Says e ∧ ¬ x.Misreads e) →
        decodeAll b = .error (.shape (.changePayload x.kind x.payload)) := by
  have hread : ∀ changes, decodeAll b = .ok changes ↔
      ∃ entries : List Entry, b = entries.flatMap Entry.bytes ∧
        List.Forall₂ (fun x e => x.Says e ∨ x.Misreads e) entries changes := by
    simp only [← Entry.change?_eq_some_iff]
    exact fun changes => decodeAll_eq_ok_iff
  have hunique : ∀ entries entries' : List Entry,
      b = entries.flatMap Entry.bytes → b = entries'.flatMap Entry.bytes → entries = entries' :=
    fun entries entries' h h' => flatMap_bytes_injective (h.symm.trans h')
  refine ⟨hread, hunique, fun entries changes hb hok => ?_, ?_⟩
  · obtain ⟨entries', hb', hall⟩ := (hread changes).1 hok
    obtain rfl := hunique entries entries' hb hb'
    exact forall₂_says_iff hall
  · rintro entries changes x rest rfl hall hrefused
    simp only [← Entry.change?_eq_some_iff, ← not_or] at hall hrefused
    exact decodeAll_of_refused hall (Option.eq_none_iff_forall_ne_some.2 hrefused) rest

/-- An update with an annotated payload in the wide form and a copy, and behind them a removal whose
payload is the unit. -/
theorem decodeAll_eq_ok_iff_entries_wide :
    let wide : Bytes := [0, 0, 0, 5, 0, 9, 7, 0, 0, 0, 4, 3, 11, 3, 3, 0, 0, 0, 2, 37, 120]
    let copied : Bytes := [255, 255, 255, 253, 3, 7, 7, 0, 1, 0, 2]
    let bad : Bytes := [0, 0, 0, 5, 1, 3, 11]
    decodeAll (wide ++ copied) = .ok [update 5 (.data0 .unit) (.data0 .false),
        { copy 1 2 with id := -3 }] ∧
      decodeAll (wide ++ copied ++ bad ++ [0, 0]) =
        .error (.shape (.changePayload .remove (.data0 .unit))) := by
  intro wide copied bad
  let x : Entry := ⟨5, .update, [9, 7, 0, 0, 0, 4, 3, 11, 3, 3, 0, 0, 0, 2, 37, 120],
    .app (.data .pair) [.data0 .unit, .data0 .false] ["%x"] true false, rfl, by rfl⟩
  let y : Entry := ⟨-3, .copy, [7, 7, 0, 1, 0, 2], .data2 .pair (.int 1) (.int 2), rfl, by rfl⟩
  let z : Entry := ⟨5, .remove, [3, 11], .data0 .unit, rfl, by rfl⟩
  have hall : List.Forall₂ (fun x e => x.Says e ∨ x.Misreads e) [x, y]
      [update 5 (.data0 .unit) (.data0 .false), { copy 1 2 with id := -3 }] :=
    .cons (.inl (.update _ _ _ _ _)) (.cons (.inl (.copy rfl rfl _ _ _ _ _)) .nil)
  have hfront : wide ++ copied = [x, y].flatMap Entry.bytes := by decide +kernel
  have hbad : bad = z.bytes := by decide +kernel
  obtain ⟨haccept, -⟩ := decodeAll_eq_ok_iff_entries (wide ++ copied)
  obtain ⟨-, -, -, hrefuse⟩ := decodeAll_eq_ok_iff_entries (wide ++ copied ++ bad ++ [0, 0])
  refine ⟨(haccept _).2 ⟨[x, y], hfront, hall⟩, ?_⟩
  refine hrefuse [x, y] _ z [0, 0] ?_ hall fun e => ⟨nofun, nofun⟩
  rw [hfront, hbad]

/-- An entry that is misread is read, although no entries with a shape have its bytes. -/
lemma decodeAll_of_misreads {x : Entry} (hb : b = x.bytes) (hx : x.Misreads e) :
    decodeAll b = .ok [e] ∧ ∀ entries : List Entry, b = entries.flatMap Entry.bytes →
      ∀ changes, ¬ List.Forall₂ Entry.Says entries changes := by
  have hone : b = [x].flatMap Entry.bytes := by simp [hb]
  have hchange : x.change? = some e := Entry.change?_eq_some_iff.2 (Or.inr hx)
  refine ⟨decodeAll_eq_ok_iff.2 ⟨[x], hone, .cons hchange .nil⟩, fun entries h changes hall => ?_⟩
  obtain rfl := flatMap_bytes_injective (hone.symm.trans h)
  cases hall with
  | cons hsays _ => exact hx.not_says hsays

/-- Three removals that do not have the shape of one: `Some` without an argument is read as the
removal of the whole map, `Some` with two as the removal of the first, and `None` with an argument as
the removal of the whole map. -/
theorem decodeAll_misreads_removals :
    let whole : Bytes := [0, 0, 0, 1, 1, 3, 9]
    let first : Bytes := [0, 0, 0, 1, 1, 7, 9, 3, 11, 3, 3]
    let behind : Bytes := [0, 0, 0, 1, 1, 5, 6, 3, 11]
    decodeAll whole = .ok [remove 1 none] ∧
      decodeAll first = .ok [remove 1 (some (.data0 .unit))] ∧
      decodeAll behind = .ok [remove 1 none] ∧
      ∀ b ∈ [whole, first, behind], ∀ entries : List Entry, b = entries.flatMap Entry.bytes →
        ∀ changes, ¬ List.Forall₂ Entry.Says entries changes := by
  intro whole first behind
  let x : Entry := ⟨1, .remove, [3, 9], .data0 .some, rfl, by rfl⟩
  let y : Entry :=
    ⟨1, .remove, [7, 9, 3, 11, 3, 3], .data2 .some (.data0 .unit) (.data0 .false), rfl, by rfl⟩
  let z : Entry := ⟨1, .remove, [5, 6, 3, 11], .data1 .none (.data0 .unit), rfl, by rfl⟩
  have hzero : ([] : List Expr).length ≠ 1 := nofun
  have htwo : [Expr.data0 .unit, .data0 .false].length ≠ 1 := nofun
  have hsome : [Expr.data0 .unit] ≠ [] := nofun
  have hx : x.Misreads (remove 1 none) := .some hzero _ _ _
  have hy : y.Misreads (remove 1 (some (.data0 .unit))) := .some htwo _ _ _
  have hz : z.Misreads (remove 1 none) := .none hsome _ _ _
  obtain ⟨hwhole, hwhole'⟩ := decodeAll_of_misreads (b := whole) (by decide +kernel) hx
  obtain ⟨hfirst, hfirst'⟩ := decodeAll_of_misreads (b := first) (by decide +kernel) hy
  obtain ⟨hbehind, hbehind'⟩ := decodeAll_of_misreads (b := behind) (by decide +kernel) hz
  refine ⟨hwhole, hfirst, hbehind, ?_⟩
  simp only [List.forall_mem_cons]
  exact ⟨hwhole', hfirst', hbehind', by simp⟩

end BigMapChange

end Michelson
