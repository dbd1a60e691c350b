/-
# What decoders read

A decoder *reads* a byte string as a value when it returns the value in front of any bytes that
follow, and leaves exactly these; it *rejects* a byte string with an error when no bytes that
follow can save it.  Both notions are closed under running decoders one after the other, which
turns a round trip through a nested format into one small law for each of its parts.

In the other direction a decoder is *exact* for a written form when whatever it returns was written
in this form in front of the bytes it leaves.  The main statements are those on the repetitions of
an item: `items_of_reads`, `items_of_rejects` and `items_exact` for the items that fill a window,
`reads_decodeMany`, `rejects_decodeMany` and `decodeMany_exact` for a given number of items.
-/
import Mathlib.Tactic
import Michelson.Expr.Binary
import Michelson.Proofs.Bytes

namespace Michelson.Decoder

variable {ε α β ι : Type}

/-- The decoder returns `a` on `b` whatever stands behind, and leaves what stands behind. -/
def Reads (d : EStateM ε Bytes α) (b : Bytes) (a : α) : Prop :=
  ∀ rest, d (b ++ rest) = .ok a rest

/-- The decoder fails with `e` on `b` whatever stands behind. -/
def Rejects (d : EStateM ε Bytes α) (b : Bytes) (e : ε) : Prop :=
  ∀ rest, ∃ left, d (b ++ rest) = .error e left

/-- Whatever the decoder returns satisfies `Ok` and was written as `w` says in front of the bytes
that are left. -/
def Exact (d : EStateM ε Bytes α) (w : α → Bytes) (Ok : α → Prop) : Prop :=
  ∀ b a rest, d b = .ok a rest → b = w a ++ rest ∧ Ok a

/-! ### One decoder after the other -/

lemma bind_apply_of_ok {d : EStateM ε Bytes α} {f : α → EStateM ε Bytes β} {b rest : Bytes} {a : α}
    (h : d b = .ok a rest) : (d >>= f) b = f a rest := by
  simp only [bind, EStateM.bind, h]

lemma bind_apply_of_error {d : EStateM ε Bytes α} {f : α → EStateM ε Bytes β} {b rest : Bytes}
    {e : ε} (h : d b = .error e rest) : (d >>= f) b = .error e rest := by
  simp only [bind, EStateM.bind, h]

lemma bind_eq_ok_iff {d : EStateM ε Bytes α} {f : α → EStateM ε Bytes β} {b rest : Bytes} {c : β} :
    (d >>= f) b = .ok c rest ↔ ∃ a mid, d b = .ok a mid ∧ f a mid = .ok c rest := by
  cases h : d b with
  | ok a mid =>
    rw [bind_apply_of_ok h]
    constructor
    · intro hc
      exact ⟨a, mid, rfl, hc⟩
    · rintro ⟨a', mid', h', hc⟩
      cases h'
      exact hc
  | error e mid =>
    rw [bind_apply_of_error h]
    simp

lemma pure_eq_ok_iff {a c : α} {b rest : Bytes} :
    (pure a : EStateM ε Bytes α) b = .ok c rest ↔ c = a ∧ rest = b := by
  simp [pure, EStateM.pure, eq_comm]

lemma throw_ne_ok {e : ε} {c : α} {b rest : Bytes} :
    (throw e : EStateM ε Bytes α) b ≠ .ok c rest := by
  intro h
  cases h

lemma reads_pure (a : α) : Reads (pure a : EStateM ε Bytes α) [] a :=
  fun _ => rfl

lemma rejects_throw (b : Bytes) (e : ε) : Rejects (throw e : EStateM ε Bytes α) b e :=
  fun rest => ⟨b ++ rest, rfl⟩

lemma Reads.bind {d : EStateM ε Bytes α} {f : α → EStateM ε Bytes β} {b b' : Bytes} {a : α} {c : β}
    (hd : Reads d b a) (hf : Reads (f a) b' c) : Reads (d >>= f) (b ++ b') c := by
  intro rest
  rw [List.append_assoc, bind_apply_of_ok (hd (b' ++ rest))]
  exact hf rest

lemma Reads.bind_rejects {d : EStateM ε Bytes α} {f : α → EStateM ε Bytes β} {b b' : Bytes} {a : α}
    {e : ε} (hd : Reads d b a) (hf : Rejects (f a) b' e) : Rejects (d >>= f) (b ++ b') e := by
  intro rest
  rw [List.append_assoc, bind_apply_of_ok (hd (b' ++ rest))]
  exact hf rest

lemma Rejects.bind {d : EStateM ε Bytes α} {b : Bytes} {e : ε} (hd : Rejects d b e)
    (f : α → EStateM ε Bytes β) (b' : Bytes) : Rejects (d >>= f) (b ++ b') e := by
  intro rest
  obtain ⟨left, h⟩ := hd (b' ++ rest)
  exact ⟨left, by rw [List.append_assoc, bind_apply_of_error h]⟩

lemma Reads.bind_rejects_nil {d : EStateM ε Bytes α} {f : α → EStateM ε Bytes β} {b : Bytes} {a : α}
    {e : ε} (hd : Reads d b a) (hf : Rejects (f a) [] e) : Rejects (d >>= f) b e := by
  have h := hd.bind_rejects hf
  rwa [List.append_nil] at h

/-- The last decoder of a sequence may read nothing. -/
lemma Reads.bind_nil {d : EStateM ε Bytes α} {f : α → EStateM ε Bytes β} {b : Bytes} {a : α} {c : β}
    (hd : Reads d b a) (hf : Reads (f a) [] c) : Reads (d >>= f) b c := by
  have h := hd.bind hf
  rwa [List.append_nil] at h

lemma Reads.map {d : EStateM ε Bytes α} {b : Bytes} {a : α} (hd : Reads d b a) (f : α → β) :
    Reads (do return f (← d)) b (f a) :=
  hd.bind_nil (reads_pure (f a))

lemma reads_lift (a : α) : Reads (lift (.ok a)) [] a :=
  fun _ => rfl

lemma rejects_lift (b : Bytes) (e : Error) : Rejects (lift (.error e : Except Error α)) b e :=
  fun rest => ⟨b ++ rest, rfl⟩

/-! ### Bytes and payloads -/

lemma reads_byte (x : UInt8) : Reads byte [x] x :=
  fun _ => rfl

lemma byte_eq_ok_iff {b rest : Bytes} {x : UInt8} : byte b = .ok x rest ↔ b = x :: rest := by
  cases b with
  | nil => simp [byte]
  | cons y b => simp [byte]

lemma reads_take (b : Bytes) : Reads (take b.length) b b := by
  intro rest
  have h : Bytes.cut? b.length (b ++ rest) = some (b, rest) :=
    Bytes.cut?_eq_some_iff.2 ⟨rfl, rfl⟩
  simp only [take, h]

lemma take_eq_ok_iff {n : Nat} {b head rest : Bytes} :
    take n b = .ok head rest ↔ b = head ++ rest ∧ head.length = n := by
  rw [← Bytes.cut?_eq_some_iff]
  cases h : Bytes.cut? n b with
  | none => simp [take, h]
  | some p => simp [take, h, Prod.ext_iff]

lemma reads_word {n : Nat} (h : n < 0x100000000) : Reads word (Bytes.word n) n := by
  have hmap := (reads_take (Bytes.word n)).map Bytes.toNat
  rwa [Bytes.length_word, Bytes.toNat_word h] at hmap

lemma word_eq_ok_iff {b rest : Bytes} {n : Nat} :
    word b = .ok n rest ↔ b = Bytes.word n ++ rest ∧ n < 0x100000000 := by
  constructor
  · intro h
    obtain ⟨head, mid, h1, h2⟩ := bind_eq_ok_iff.1 h
    obtain ⟨rfl, rfl⟩ := pure_eq_ok_iff.1 h2
    obtain ⟨rfl, hlen⟩ := take_eq_ok_iff.1 h1
    exact ⟨by rw [Bytes.word_toNat hlen], Bytes.toNat_lt_of_length hlen⟩
  · rintro ⟨rfl, h⟩
    exact reads_word h rest

lemma reads_block {b : Bytes} (h : b.IsShort) : Reads block b.sized b := by
  refine (reads_word h).bind fun rest => ?_
  have hcut : Bytes.cut? b.length (b ++ rest) = some (b, rest) :=
    Bytes.cut?_eq_some_iff.2 ⟨rfl, rfl⟩
  simp only [hcut]

lemma block_eq_ok_iff {b payload rest : Bytes} :
    block b = .ok payload rest ↔ b = payload.sized ++ rest ∧ payload.IsShort := by
  constructor
  · intro h
    obtain ⟨n, mid, h1, h2⟩ := bind_eq_ok_iff.1 h
    obtain ⟨rfl, hn⟩ := word_eq_ok_iff.1 h1
    cases hcut : Bytes.cut? n mid with
    | none => simp [hcut] at h2
    | some p =>
      obtain ⟨head, tail⟩ := p
      obtain ⟨rfl, hlen⟩ := Bytes.cut?_eq_some_iff.1 hcut
      simp only [hcut, EStateM.Result.ok.injEq] at h2
      obtain ⟨rfl, rfl⟩ := h2
      subst hlen
      exact ⟨by rw [Bytes.sized, List.append_assoc], hn⟩
  · rintro ⟨rfl, h⟩
    exact reads_block h rest

/-! ### Repetitions of an item -/

section Repetition

variable {item : EStateM ε Bytes α} {w : ι → Bytes} {v : ι → α}

/-- The items of a window are read one after the other.  An item is at least one byte long, so the
length of the window is fuel enough. -/
lemma items_of_reads {stuck : ε} {xs : List ι} {fuel : Nat} (hpos : ∀ x ∈ xs, w x ≠ [])
    (hxs : ∀ x ∈ xs, Reads item (w x) (v x)) (hfuel : (xs.flatMap w).length ≤ fuel) :
    items stuck item fuel (xs.flatMap w) = .ok (xs.map v) := by
  induction xs generalizing fuel with
  | nil => cases fuel <;> rfl
  | cons x xs ih =>
    have hx := hxs x List.mem_cons_self (xs.flatMap w)
    rw [List.flatMap_cons] at hfuel ⊢
    obtain ⟨y, b, hw⟩ := List.exists_cons_of_ne_nil (hpos x List.mem_cons_self)
    rw [hw, List.cons_append] at hfuel hx ⊢
    cases fuel with
    | zero => simp at hfuel
    | succ fuel =>
      have htail : items stuck item fuel (xs.flatMap w) = .ok (xs.map v) :=
        ih (fun z hz => hpos z (List.mem_cons_of_mem x hz))
          (fun z hz => hxs z (List.mem_cons_of_mem x hz))
          (by simp only [List.length_cons, List.length_append] at hfuel; omega)
      simp only [items, hx, htail, List.map_cons, Except.map]

/-- The first item that is rejected decides. -/
lemma items_of_rejects {stuck e : ε} {xs : List ι} {fuel : Nat} (hpos : ∀ x ∈ xs, w x ≠ [])
    (hxs : ∀ x ∈ xs, Reads item (w x) (v x) ∨ Rejects item (w x) e)
    (hbad : ∃ x ∈ xs, Rejects item (w x) e) (hfuel : (xs.flatMap w).length ≤ fuel) :
    items stuck item fuel (xs.flatMap w) = .error e := by
  induction xs generalizing fuel with
  | nil => simp at hbad
  | cons x xs ih =>
    rw [List.flatMap_cons] at hfuel ⊢
    obtain ⟨y, b, hw⟩ := List.exists_cons_of_ne_nil (hpos x List.mem_cons_self)
    have hx := hxs x List.mem_cons_self
    rw [hw, List.cons_append] at hfuel ⊢
    rw [hw] at hx
    cases fuel with
    | zero => simp at hfuel
    | succ fuel =>
      by_cases hreject : Rejects item (y :: b) e
      · obtain ⟨left, h⟩ := hreject (xs.flatMap w)
        rw [List.cons_append] at h
        simp only [items, h]
      · have hread := (hx.resolve_right hreject) (xs.flatMap w)
        have hbad' := (List.or_exists_of_exists_mem_cons hbad).resolve_left (hw ▸ hreject)
        have htail : items stuck item fuel (xs.flatMap w) = .error e :=
          ih (fun z hz => hpos z (List.mem_cons_of_mem x hz))
            (fun z hz => hxs z (List.mem_cons_of_mem x hz)) hbad'
            (by simp only [List.length_cons, List.length_append] at hfuel; omega)
        rw [List.cons_append] at hread
        simp only [items, hread, htail, Except.map]

/-- Whatever the items of a window are, they fill it. -/
lemma items_exact {stuck : ε} {w : α → Bytes} {Ok : α → Prop} (hitem : Exact item w Ok)
    {fuel : Nat} {b : Bytes} {as : List α} (h : items stuck item fuel b = .ok as) :
    b = as.flatMap w ∧ ∀ a ∈ as, Ok a := by
  induction fuel generalizing b as with
  | zero =>
    cases b with
    | nil => cases h; simp
    | cons x b => simp [items] at h
  | succ fuel ih =>
    cases b with
    | nil => cases h; simp
    | cons x b =>
      cases hx : item (x :: b) with
      | error e rest => simp [items, hx] at h
      | ok a rest =>
        obtain ⟨hb, ha⟩ := hitem _ _ _ hx
        cases htail : items stuck item fuel rest with
        | error e => simp [items, hx, htail, Except.map] at h
        | ok tail =>
          simp only [items, hx, htail, Except.map, Except.ok.injEq] at h
          subst h
          obtain ⟨hrest, hall⟩ := ih htail
          refine ⟨by rw [hb, hrest, List.flatMap_cons], ?_⟩
          rintro c (_ | ⟨_, hc⟩)
          · exact ha
          · exact hall c hc

/-- When every item takes a byte at least, fuel for every byte of the window is as good as more. -/
lemma items_eq_of_length_le {stuck : ε}
    (hitem : ∀ b a rest, item b = .ok a rest → rest.length < b.length) {b : Bytes}
    {fuel fuel' : Nat} (h : b.length ≤ fuel) (h' : b.length ≤ fuel') :
    items stuck item fuel b = items stuck item fuel' b := by
  induction fuel generalizing fuel' b with
  | zero =>
    obtain rfl : b = [] := List.length_eq_zero_iff.1 (Nat.le_zero.1 h)
    cases fuel' <;> rfl
  | succ fuel ih =>
    rcases b with _ | ⟨x, b⟩
    · cases fuel' <;> rfl
    · rw [List.length_cons] at h h'
      obtain ⟨fuel', rfl⟩ := Nat.exists_eq_succ_of_ne_zero (Nat.ne_zero_of_lt h')
      cases hx : item (x :: b) with
      | error e rest => simp only [items, hx]
      | ok a rest =>
        have hrest := hitem _ _ _ hx
        rw [List.length_cons] at hrest
        have htail : items stuck item fuel rest = items stuck item fuel' rest :=
          ih (by omega) (by omega)
        simp only [items, hx, htail]

/-- A given number of items is read one after the other. -/
lemma reads_decodeMany {item : Decoder α} {xs : List ι}
    (hxs : ∀ x ∈ xs, Reads item (w x) (v x)) :
    Reads (Expr.decodeMany item xs.length) (xs.flatMap w) (xs.map v) := by
  induction xs with
  | nil => exact reads_pure []
  | cons x xs ih =>
    have hx := hxs x List.mem_cons_self
    have htail := ih fun z hz => hxs z (List.mem_cons_of_mem x hz)
    exact hx.bind (htail.map (v x :: ·))

lemma rejects_decodeMany {item : Decoder α} {e : Error} {xs : List ι}
    (hxs : ∀ x ∈ xs, Reads item (w x) (v x) ∨ Rejects item (w x) e)
    (hbad : ∃ x ∈ xs, Rejects item (w x) e) :
    Rejects (Expr.decodeMany item xs.length) (xs.flatMap w) e := by
  induction xs with
  | nil => simp at hbad
  | cons x xs ih =>
    rw [List.flatMap_cons]
    by_cases hreject : Rejects item (w x) e
    · exact hreject.bind _ _
    · have hread := (hxs x List.mem_cons_self).resolve_right hreject
      have hbad' := (List.or_exists_of_exists_mem_cons hbad).resolve_left hreject
      have htail := ih (fun z hz => hxs z (List.mem_cons_of_mem x hz)) hbad'
      refine hread.bind_rejects ?_
      have h := htail.bind (fun as => pure (v x :: as)) []
      rwa [List.append_nil] at h

lemma decodeMany_exact {item : Decoder α} {w : α → Bytes} {Ok : α → Prop}
    (hitem : Exact item w Ok) (n : Nat) :
    Exact (Expr.decodeMany item n) (fun as => as.flatMap w)
      (fun as => as.length = n ∧ ∀ a ∈ as, Ok a) := by
  induction n with
  | zero =>
    intro b as rest h
    obtain ⟨rfl, rfl⟩ := pure_eq_ok_iff.1 h
    simp
  | succ n ih =>
    intro b as rest h
    obtain ⟨a, mid, h1, h2⟩ := bind_eq_ok_iff.1 h
    obtain ⟨tail, mid', h3, h4⟩ := bind_eq_ok_iff.1 h2
    obtain ⟨rfl, rfl⟩ := pure_eq_ok_iff.1 h4
    obtain ⟨hb, ha⟩ := hitem _ _ _ h1
    obtain ⟨hmid, hlen, hall⟩ := ih _ _ _ h3
    refine ⟨by simp only [hb, hmid, List.flatMap_cons, List.append_assoc], by simp [hlen], ?_⟩
    rintro c (_ | ⟨_, hc⟩)
    · exact ha
    · exact hall c hc

end Repetition

end Michelson.Decoder
