/-
# Cursors stay in their windows

A cursor is moved by decoders, and hands out cursors over the payloads that it reads off.  All of
them may be called in any order and any number of times, also after a call has failed, and a call
of one does not move another.  The state of such a run is the list of the cursors in use, each
with a note on where its window was read off (`Opened`).

No decoder goes back or beyond the end, also when it fails.  So each call moves one cursor forward
within its window (`getElem?_step`), and a window that is read off is the piece between the
positions before and after, behind its length (`of_getElem?_step`).  Windows read off one cursor are
then apart and in order, since it has moved behind the one when it comes to the other
(`isSound_step`).  The main statement is `run_stays_inside`.
-/
import Michelson.Proofs.Binary.Forward
import Michelson.Proofs.Except

namespace Michelson.Cursor

open Decoder

variable {α β : Type} {c c' : Cursor}

/-- The bytes behind the position are the last ones of the window. -/
def IsInside (c : Cursor) : Prop := c.rest <:+ c.window

lemma isInside_start (window : Bytes) : (start window).IsInside :=
  List.suffix_refl window

lemma IsInside.position_add_remaining (h : c.IsInside) :
    c.position + c.remaining = c.window.length := by
  have hle := h.length_le
  rw [position, remaining]
  omega

lemma IsInside.rest_eq (h : c.IsInside) : c.rest = c.window.drop c.position := by
  obtain ⟨front, hfront⟩ := h
  have hposition : c.position = front.length := by
    rw [position, ← hfront, List.length_append, Nat.add_sub_cancel]
  rw [hposition, ← hfront, List.drop_left]

lemma read_of_ok {d : Decoder α} {a : α} {rest : Bytes} (h : d c.rest = .ok a rest) :
    c.read d = (.ok a, ⟨c.window, rest⟩) := by
  rw [read, h]

lemma read_of_error {d : Decoder α} {e : Error} {rest : Bytes} (h : d c.rest = .error e rest) :
    c.read d = (.error e, ⟨c.window, rest⟩) := by
  rw [read, h]

lemma read_map (d : Decoder α) (f : α → β) (c : Cursor) :
    c.read (do return f (← d)) = ((c.read d).1.map f, (c.read d).2) := by
  cases h : d c.rest with
  | ok a rest =>
    have hmap : (do return f (← d) : Decoder β) c.rest = .ok (f a) rest := bind_apply_of_ok h
    rw [read_of_ok h, read_of_ok hmap, Except.map]
  | error e rest =>
    have hmap : (do return f (← d) : Decoder β) c.rest = .error e rest := bind_apply_of_error h
    rw [read_of_error h, read_of_error hmap, Except.map]

/-- A cursor is moved forward within its window. -/
structure Moves (c c' : Cursor) : Prop where
  window_eq : c'.window = c.window
  position_le : c.position ≤ c'.position
  isInside : c.IsInside → c'.IsInside

lemma Moves.refl (c : Cursor) : c.Moves c :=
  ⟨rfl, Nat.le_refl _, id⟩

lemma Moves.trans {c'' : Cursor} (h : c.Moves c') (h' : c'.Moves c'') : c.Moves c'' :=
  ⟨h'.window_eq.trans h.window_eq, h.position_le.trans h'.position_le,
    fun hc => h'.isInside (h.isInside hc)⟩

/-- A cursor is moved to where the bytes begin that a decoder leaves. -/
lemma moves_of_suffix {rest : Bytes} (h : rest <:+ c.rest) : c.Moves ⟨c.window, rest⟩ :=
  ⟨rfl, Nat.sub_le_sub_left h.length_le _, fun hc => h.trans hc⟩

lemma moves_read {d : Decoder α} (hd : Advances d) (c : Cursor) : c.Moves (c.read d).2 := by
  cases h : d c.rest with
  | ok a rest =>
    rw [read_of_ok h]
    exact moves_of_suffix (hd.of_ok h)
  | error e rest =>
    rw [read_of_error h]
    exact moves_of_suffix (hd.of_error h)

/-- Bytes are taken off the window from the position on, if the window has so many. -/
lemma read_take (h : c.IsInside) (n : Nat) :
    c.read (take n) =
      if c.position + n ≤ c.window.length then
        (.ok ((c.window.drop c.position).take n), ⟨c.window, c.window.drop (c.position + n)⟩)
      else (.error .shortBuffer, c) := by
  have hlength := h.position_add_remaining
  rw [remaining] at hlength
  split
  case isTrue hle =>
    have htake : take n c.rest = .ok (c.rest.take n) (c.rest.drop n) :=
      take_eq_ok_iff.2 ⟨(List.take_append_drop n c.rest).symm,
        List.length_take_of_le (by omega)⟩
    rw [read_of_ok htake, ← List.drop_drop, ← h.rest_eq]
  case isFalse hgt =>
    have hcut : Bytes.cut? n c.rest = none := by
      refine Option.eq_none_iff_forall_ne_some.2 fun p hp => ?_
      obtain ⟨hrest, hn⟩ := Bytes.cut?_eq_some_iff.1 hp
      have hsum := congrArg List.length hrest
      rw [List.length_append] at hsum
      omega
    have htake : take n c.rest = .error .shortBuffer c.rest := by
      rw [take, hcut]
    exact read_of_error htake

/-! ### Calls -/

/-- A call of a cursor. -/
inductive Call where
  | take (n : Nat)
  | byte
  | word
  | number
  | tree
  | block

/-- What a call returns. -/
inductive Answer where
  | bytes (b : Bytes)
  | byte (x : UInt8)
  | word (n : Nat)
  | number (i : Int)
  | tree (e : Expr)
  /-- The start of a window that was read off. -/
  | opened (sub : Cursor)

namespace Call

/-- What a call returns, and where the cursor is then.  The limit is that on the height of trees. -/
def run (limit : Nat) (c : Cursor) : Call → Except Error Answer × Cursor
  | take n => (c.read (Decoder.take n)).map (Except.map Answer.bytes) id
  | byte => (c.read Decoder.byte).map (Except.map Answer.byte) id
  | word => (c.read Decoder.word).map (Except.map Answer.word) id
  | number => (c.read Zarith.decode).map (Except.map Answer.number) id
  | tree => (c.read (Expr.decoder limit)).map (Except.map Answer.tree) id
  | block => c.block.map (Except.map Answer.opened) id

/-- Whether a call reads a number of bytes that is known before. -/
def isFixed : Call → Bool
  | take _ | byte | word => true
  | _ => false

/-- A call as a decoder. -/
def decoder (limit : Nat) : Call → Decoder Answer
  | take n => do return .bytes (← Decoder.take n)
  | byte => do return .byte (← Decoder.byte)
  | word => do return .word (← Decoder.word)
  | number => do return .number (← Zarith.decode)
  | tree => do return .tree (← Expr.decoder limit)
  | block => do return .opened (start (← Decoder.block))

lemma run_eq_read (limit : Nat) (c : Cursor) (call : Call) :
    call.run limit c = c.read (call.decoder limit) := by
  cases call with
  | block =>
    rw [run, Cursor.block, decoder, read_map, read_map, Prod.map, Except.map_map]
    rfl
  | _ => exact (read_map _ _ c).symm

lemma advances_decoder (limit : Nat) (call : Call) : Advances (call.decoder limit) := by
  have hparts := isCompositional_advances
  cases call with
  | take n => exact hparts.map (hparts.take n) _
  | byte => exact hparts.map hparts.byte _
  | word => exact hparts.map hparts.word _
  | number => exact hparts.map hparts.number _
  | tree => exact hparts.map (hparts.decodeWithin limit (limit + 1)) _
  | block => exact hparts.map hparts.block _

lemma moves_run (limit : Nat) (c : Cursor) (call : Call) : c.Moves (call.run limit c).2 := by
  rw [run_eq_read]
  exact moves_read (advances_decoder limit call) c

/-- A call for a known number of bytes that fails does not move the cursor. -/
lemma run_snd_of_isFixed {limit : Nat} {call : Call} (hfixed : call.isFixed) {e : Error}
    (h : (call.run limit c).1 = .error e) : (call.run limit c).2 = c := by
  rw [run_eq_read] at h ⊢
  cases hread : call.decoder limit c.rest with
  | ok answer rest =>
    rw [read_of_ok hread] at h
    cases h
  | error e' rest =>
    have hrest : rest = c.rest := by
      cases call with
      | take n => exact eq_of_take_eq_error (eq_error_of_map hread)
      | byte => exact eq_of_byte_eq_error (eq_error_of_map hread)
      | word => exact eq_of_take_eq_error (eq_error_of_map (eq_error_of_map hread))
      | _ => cases hfixed
    rw [read_of_error hread, hrest]

/-- A window that is read off stands behind its length. -/
lemma exists_of_opened {limit : Nat} {call : Call} {sub : Cursor}
    (h : (call.run limit c).1 = .ok (.opened sub)) :
    ∃ payload : Bytes, sub = start payload ∧
      c.rest = payload.sized ++ (call.run limit c).2.rest := by
  rw [run_eq_read] at h ⊢
  cases hread : call.decoder limit c.rest with
  | error e rest =>
    rw [read_of_error hread] at h
    cases h
  | ok answer rest =>
    rw [read_of_ok hread] at h ⊢
    cases h
    cases call
    case block =>
      obtain ⟨payload, mid, hpayload, hopened⟩ := bind_eq_ok_iff.1 hread
      cases hopened
      exact ⟨payload, rfl, (block_eq_ok_iff.1 hpayload).1⟩
    all_goals
      obtain ⟨a, mid, -, hpure⟩ := bind_eq_ok_iff.1 hread
      cases hpure

end Call

/-! ### Cursors in use -/

/-- Where a window was read off. -/
structure Origin where
  /-- The place of the cursor whose window it is a piece of. -/
  parent : Nat
  /-- The position of that cursor before. -/
  before : Nat
  /-- The position of that cursor after. -/
  after : Nat
deriving DecidableEq, Repr

/-- A cursor in use. -/
structure Opened where
  /-- The cursor. -/
  cursor : Cursor
  /-- Where its window was read off, if it is not the window at the beginning. -/
  origin : Option Origin
deriving DecidableEq, Repr

/-- The cursors in use at the beginning. -/
def opening (window : Bytes) : List Opened := [⟨start window, none⟩]

/-- Calls the cursor at a place.  A cursor that is handed out comes last. -/
def step (limit : Nat) (cursors : List Opened) (place : Nat) (call : Call) : List Opened :=
  match cursors[place]? with
  | none => cursors
  | some o =>
    let (answer, c) := call.run limit o.cursor
    let moved := cursors.set place { o with cursor := c }
    match answer with
    | .ok (.opened sub) => moved ++ [⟨sub, some ⟨place, o.cursor.position, c.position⟩⟩]
    | _ => moved

/-- Calls cursors in turn. -/
def run (limit : Nat) (cursors : List Opened) (calls : List (Nat × Call)) : List Opened :=
  calls.foldl (fun cursors p => step limit cursors p.1 p.2) cursors

variable {limit : Nat} {cursors : List Opened} {place j : Nat} {call : Call} {o o' : Opened}

/-- What a call does: nothing when there is no cursor at the place, and otherwise it moves the
cursor there, and may hand one out. -/
lemma step_cases (limit : Nat) (cursors : List Opened) (place : Nat) (call : Call) :
    step limit cursors place call = cursors ∨
      ∃ o c extra, cursors[place]? = some o ∧ (call.run limit o.cursor).2 = c ∧
        step limit cursors place call = cursors.set place { o with cursor := c } ++ extra ∧
        (extra = [] ∨ ∃ sub, (call.run limit o.cursor).1 = .ok (.opened sub) ∧
          extra = [⟨sub, some ⟨place, o.cursor.position, c.position⟩⟩]) := by
  cases h : cursors[place]? with
  | none => exact Or.inl (by rw [step, h])
  | some o =>
    refine Or.inr ?_
    rcases hrun : call.run limit o.cursor with ⟨answer, c⟩
    rw [step, h]
    simp only [hrun]
    split
    case h_1 sub => exact ⟨o, c, _, rfl, by rw [hrun], rfl, Or.inr ⟨sub, by rw [hrun], rfl⟩⟩
    case h_2 => exact ⟨o, c, [], rfl, by rw [hrun], (List.append_nil _).symm, Or.inl rfl⟩

/-- A cursor in use is moved forward. -/
structure Opened.Moves (o o' : Opened) : Prop where
  origin_eq : o'.origin = o.origin
  cursor : o.cursor.Moves o'.cursor

lemma Opened.Moves.refl (o : Opened) : o.Moves o :=
  ⟨rfl, .refl _⟩

lemma Opened.Moves.trans {o'' : Opened} (h : o.Moves o') (h' : o'.Moves o'') : o.Moves o'' :=
  ⟨h'.origin_eq.trans h.origin_eq, h.cursor.trans h'.cursor⟩

lemma getElem?_set_append {x : Opened} (extra : List Opened) (h : cursors[j]? = some o) :
    (cursors.set place x ++ extra)[j]? = some (if place = j then x else o) := by
  have hj : j < cursors.length := (List.getElem?_eq_some_iff.1 h).1
  rw [List.getElem?_append_left (by rwa [List.length_set]), List.getElem?_set]
  split
  case isTrue heq => rw [heq, if_pos hj]
  case isFalse => exact h

/-- A call moves the cursors in use forward, and the others than the one that is called not at
all. -/
lemma getElem?_step (limit : Nat) (place : Nat) (call : Call) (h : cursors[j]? = some o) :
    ∃ o', (step limit cursors place call)[j]? = some o' ∧ o.Moves o' ∧ (j ≠ place → o' = o) := by
  rcases step_cases limit cursors place call with hstep | ⟨o₁, c, extra, hplace, rfl, hstep, -⟩
  · rw [hstep]
    exact ⟨o, h, .refl o, fun _ => rfl⟩
  · rw [hstep]
    refine ⟨_, getElem?_set_append extra h, ?_⟩
    split
    case isTrue hj =>
      subst hj
      obtain rfl : o₁ = o := Option.some.inj (hplace.symm.trans h)
      exact ⟨⟨rfl, call.moves_run limit o₁.cursor⟩, fun hne => absurd rfl hne⟩
    case isFalse => exact ⟨.refl o, fun _ => rfl⟩

/-- What is in use after a call was in use before it, or is a cursor over a window that was read
off. -/
lemma of_getElem?_step (h : (step limit cursors place call)[j]? = some o') :
    (∃ o, cursors[j]? = some o ∧ o.Moves o') ∨
      (j = cursors.length ∧ ∃ o p sub, cursors[place]? = some o ∧
        (step limit cursors place call)[place]? = some p ∧
        (call.run limit o.cursor).1 = .ok (.opened sub) ∧
        p.cursor = (call.run limit o.cursor).2 ∧
        o' = ⟨sub, some ⟨place, o.cursor.position, p.cursor.position⟩⟩) := by
  by_cases hj : j < cursors.length
  · obtain ⟨o'', ho'', hmoves, -⟩ :=
      getElem?_step limit place call (List.getElem?_eq_getElem hj)
    obtain rfl : o'' = o' := Option.some.inj (ho''.symm.trans h)
    exact Or.inl ⟨_, List.getElem?_eq_getElem hj, hmoves⟩
  · right
    rcases step_cases limit cursors place call with
      hstep | ⟨o, c, extra, hplace, rfl, hstep, hextra⟩
    · rw [hstep, List.getElem?_eq_none (Nat.not_lt.1 hj)] at h
      cases h
    · rw [hstep, List.getElem?_append_right (by rwa [List.length_set, ← Nat.not_lt]),
        List.length_set] at h
      rcases hextra with rfl | ⟨sub, hsub, rfl⟩
      · cases h
      · obtain ⟨hlt, hlast⟩ := List.getElem?_eq_some_iff.1 h
        rw [List.length_singleton] at hlt
        refine ⟨by omega, o, { o with cursor := (call.run limit o.cursor).2 }, sub, hplace, ?_,
          hsub, rfl, ?_⟩
        · rw [hstep, getElem?_set_append _ hplace, if_pos rfl]
        · rw [← hlast, List.getElem_singleton]

/-- The window is the piece of the window of its origin between the positions before and after,
without the length in front of it. -/
structure IsPiece (window : Bytes) (g : Origin) (parent : Cursor) : Prop where
  before_add : g.before + 4 + window.length = g.after
  after_le : g.after ≤ parent.position
  window_eq : window = (parent.window.drop (g.before + 4)).take window.length

lemma IsPiece.of_moves {window : Bytes} {g : Origin} {c c' : Cursor} (h : IsPiece window g c)
    (hmoves : c.Moves c') : IsPiece window g c' :=
  ⟨h.before_add, h.after_le.trans hmoves.position_le, by rw [hmoves.window_eq]; exact h.window_eq⟩

/-- A window that is read off is a piece of the one it is read off. -/
lemma isPiece_of_opened {c sub : Cursor} (hc : c.IsInside)
    (h : (call.run limit c).1 = .ok (.opened sub)) (parent : Nat) :
    sub.IsInside ∧ IsPiece sub.window ⟨parent, c.position, (call.run limit c).2.position⟩
      (call.run limit c).2 := by
  obtain ⟨payload, rfl, hrest⟩ := Call.exists_of_opened h
  have hmoves := call.moves_run limit c
  have hbefore := hc.position_add_remaining
  have hafter := (hmoves.isInside hc).position_add_remaining
  have hlength := congrArg List.length hrest
  rw [remaining] at hbefore hafter
  rw [List.length_append, Bytes.length_sized] at hlength
  rw [hmoves.window_eq] at hafter
  refine ⟨isInside_start payload, ?_, Nat.le_refl _, ?_⟩
  · change c.position + 4 + payload.length = (call.run limit c).2.position
    omega
  · change payload = _
    rw [hmoves.window_eq, ← List.drop_drop, ← hc.rest_eq, hrest, Bytes.sized_append,
      List.drop_left' (Bytes.length_word _)]
    exact List.take_left.symm

/-- All cursors are inside their windows, each window that was read off is a piece of that of its
origin, and of two windows read off one cursor the later one is behind the other. -/
structure IsSound (cursors : List Opened) : Prop where
  inside {j : Nat} {o : Opened} (h : cursors[j]? = some o) : o.cursor.IsInside
  piece {j : Nat} {o : Opened} {g : Origin} (h : cursors[j]? = some o) (hg : o.origin = some g) :
    ∃ p, cursors[g.parent]? = some p ∧ IsPiece o.cursor.window g p.cursor
  ordered {i j : Nat} {o o' : Opened} {g g' : Origin} (hij : i < j) (h : cursors[i]? = some o)
    (h' : cursors[j]? = some o') (hg : o.origin = some g) (hg' : o'.origin = some g')
    (hparent : g.parent = g'.parent) : g.after ≤ g'.before

lemma isSound_opening (window : Bytes) : IsSound (opening window) where
  inside {j o} h := by
    obtain rfl := List.mem_singleton.1 (List.mem_of_getElem? h)
    exact isInside_start window
  piece {j o g} h hg := by
    obtain rfl := List.mem_singleton.1 (List.mem_of_getElem? h)
    cases hg
  ordered {i j o o' g g'} _ h _ hg := by
    obtain rfl := List.mem_singleton.1 (List.mem_of_getElem? h)
    cases hg

/-- A call keeps the cursors sound. -/
lemma isSound_step (h : IsSound cursors) (limit : Nat) (place : Nat) (call : Call) :
    IsSound (step limit cursors place call) where
  inside {j o'} ho' := by
    rcases of_getElem?_step ho' with ⟨o, ho, hmoves⟩ | ⟨-, o, p, sub, ho, -, hsub, -, rfl⟩
    · exact hmoves.cursor.isInside (h.inside ho)
    · exact (isPiece_of_opened (h.inside ho) hsub place).1
  piece {j o' g} ho' hg := by
    rcases of_getElem?_step ho' with ⟨o, ho, hmoves⟩ | ⟨-, o, p, sub, ho, hp, hsub, hrun, rfl⟩
    · obtain ⟨p, hp, hpiece⟩ := h.piece ho (hmoves.origin_eq ▸ hg)
      obtain ⟨p', hp', hmoves', -⟩ := getElem?_step limit place call hp
      rw [hmoves.cursor.window_eq]
      exact ⟨p', hp', hpiece.of_moves hmoves'.cursor⟩
    · cases hg
      rw [hrun]
      exact ⟨p, hp, hrun ▸ (isPiece_of_opened (h.inside ho) hsub place).2⟩
  ordered {i j o o' g g'} hij ho ho' hg hg' hparent := by
    rcases of_getElem?_step ho with ⟨o₁, ho₁, hmoves₁⟩ | ⟨hi, -⟩
    · rcases of_getElem?_step ho' with ⟨o₂, ho₂, hmoves₂⟩ | ⟨-, o₂, p, sub, ho₂, -, -, -, rfl⟩
      · exact h.ordered hij ho₁ ho₂ (hmoves₁.origin_eq ▸ hg) (hmoves₂.origin_eq ▸ hg') hparent
      · -- the window of the one was read off before the position that the call found
        cases hg'
        obtain ⟨p', hp', hpiece⟩ := h.piece ho₁ (hmoves₁.origin_eq ▸ hg)
        rw [hparent] at hp'
        obtain rfl : o₂ = p' := Option.some.inj (ho₂.symm.trans hp')
        exact hpiece.after_le
    · -- nothing comes behind the last place
      rcases of_getElem?_step ho' with ⟨o₂, ho₂, -⟩ | ⟨hj, -⟩
      · have hlt := (List.getElem?_eq_some_iff.1 ho₂).1
        omega
      · omega

/-! ### Runs -/

lemma isSound_run (h : IsSound cursors) (limit : Nat) (calls : List (Nat × Call)) :
    IsSound (run limit cursors calls) := by
  induction calls generalizing cursors with
  | nil => exact h
  | cons p calls ih => exact ih (isSound_step h limit p.1 p.2)

lemma getElem?_run (limit : Nat) (calls : List (Nat × Call)) (h : cursors[j]? = some o) :
    ∃ o', (run limit cursors calls)[j]? = some o' ∧ o.Moves o' := by
  induction calls generalizing cursors o with
  | nil => exact ⟨o, h, .refl o⟩
  | cons p calls ih =>
    obtain ⟨o₁, ho₁, hmoves₁, -⟩ := getElem?_step limit p.1 p.2 h
    obtain ⟨o₂, ho₂, hmoves₂⟩ := ih ho₁
    exact ⟨o₂, ho₂, hmoves₁.trans hmoves₂⟩

/-- After any calls of a cursor and of the cursors it hands out, the failing ones included, every
cursor in use has its position within its window and the bytes behind it are those that are left, so
that bytes are taken off the window where there are so many and are refused otherwise.  Further
calls leave the windows as they are and never move a cursor back, and a call for a known number of
bytes that fails moves nothing.  A window that was read off is the piece of the window of its origin
between the positions before and after, without its length; and of two windows read off one cursor
the earlier one ends before the later one begins. -/
theorem run_stays_inside (limit : Nat) (window : Bytes) (calls : List (Nat × Call)) :
    let cursors := run limit (opening window) calls
    (∀ o ∈ cursors, o.cursor.position ≤ o.cursor.window.length ∧
      o.cursor.position + o.cursor.remaining = o.cursor.window.length ∧
      o.cursor.rest = o.cursor.window.drop o.cursor.position ∧
      ∀ n, o.cursor.read (take n) =
        if o.cursor.position + n ≤ o.cursor.window.length then
          (.ok ((o.cursor.window.drop o.cursor.position).take n),
            ⟨o.cursor.window, o.cursor.window.drop (o.cursor.position + n)⟩)
        else (.error .shortBuffer, o.cursor)) ∧
    (∀ (j : Nat) (o : Opened), cursors[j]? = some o → ∀ calls', ∃ o' : Opened,
      (run limit cursors calls')[j]? = some o' ∧ o'.cursor.window = o.cursor.window ∧
      o.cursor.position ≤ o'.cursor.position) ∧
    (∀ o ∈ cursors, ∀ call : Call, call.isFixed → ∀ e, (call.run limit o.cursor).1 = .error e →
      (call.run limit o.cursor).2 = o.cursor) ∧
    (∀ (j : Nat) (o : Opened) (g : Origin), cursors[j]? = some o → o.origin = some g →
      ∃ p : Opened, cursors[g.parent]? = some p ∧ g.before + 4 + o.cursor.window.length = g.after ∧
        g.after ≤ p.cursor.position ∧
        o.cursor.window = (p.cursor.window.drop (g.before + 4)).take o.cursor.window.length) ∧
    ∀ (i j : Nat) (o o' : Opened) (g g' : Origin), i < j → cursors[i]? = some o →
      cursors[j]? = some o' → o.origin = some g → o'.origin = some g' → g.parent = g'.parent →
      g.after ≤ g'.before := by
  intro cursors
  have hsound : IsSound cursors := isSound_run (isSound_opening window) limit calls
  refine ⟨fun o ho => ?_, fun j o ho calls' => ?_, fun o _ call hfixed e he => ?_,
    fun j o g ho hg => ?_, fun i j o o' g g' hij ho ho' hg hg' hparent => ?_⟩
  · obtain ⟨j, hj⟩ := List.mem_iff_getElem?.1 ho
    have hinside := hsound.inside hj
    have hlength := hinside.position_add_remaining
    exact ⟨by omega, hlength, hinside.rest_eq, read_take hinside⟩
  · obtain ⟨o', ho', hmoves⟩ := getElem?_run limit calls' ho
    exact ⟨o', ho', hmoves.cursor.window_eq, hmoves.cursor.position_le⟩
  · exact call.run_snd_of_isFixed hfixed he
  · obtain ⟨p, hp, hpiece⟩ := hsound.piece ho hg
    exact ⟨p, hp, hpiece.before_add, hpiece.after_le, hpiece.window_eq⟩
  · exact hsound.ordered hij ho ho' hg hg' hparent

/-- Two windows are read off one cursor and one more off the first of them; then a length goes
beyond the bytes that are left, a tree is cut short behind its tag, and a word is read where
nothing is left. -/
theorem run_stays_inside_failing :
    let window : Bytes := [0, 0, 0, 6, 0, 0, 0, 1, 7, 8, 0, 0, 0, 1, 9, 0, 0, 0, 9, 5]
    let cursors := run 2 (opening window)
      [(0, .block), (1, .block), (0, .block), (0, .block), (1, .tree), (1, .word)]
    let first : Opened := ⟨⟨[0, 0, 0, 1, 7, 8], []⟩, some ⟨0, 0, 10⟩⟩
    cursors = [⟨⟨window, [5]⟩, none⟩, first, ⟨start [7], some ⟨1, 0, 5⟩⟩,
        ⟨start [9], some ⟨0, 10, 15⟩⟩] ∧
      first.cursor.read (take 1) = (.error .shortBuffer, first.cursor) ∧
      (Call.run 2 first.cursor .word).2 = first.cursor ∧
      (∃ o' : Opened, (run 2 cursors [(0, .byte), (1, .byte)])[1]? = some o' ∧
        o'.cursor.window = first.cursor.window ∧ 6 ≤ o'.cursor.position) ∧
      (∃ p : Opened, cursors[1]? = some p ∧ 5 ≤ p.cursor.position ∧
        [7] = (p.cursor.window.drop 4).take 1) ∧
      (10 : Nat) ≤ 10 := by
  intro window cursors first
  have hcursors : cursors = [⟨⟨window, [5]⟩, none⟩, first, ⟨start [7], some ⟨1, 0, 5⟩⟩,
      ⟨start [9], some ⟨0, 10, 15⟩⟩] := by decide +kernel
  obtain ⟨hinside, hmoves, hfixed, hpiece, hordered⟩ := run_stays_inside 2 window
    [(0, .block), (1, .block), (0, .block), (0, .block), (1, .tree), (1, .word)]
  have hfirst : cursors[1]? = some first := by rw [hcursors]; rfl
  have hmem : first ∈ cursors := List.mem_of_getElem? hfirst
  have hlast : cursors[3]? = some ⟨start [9], some ⟨0, 10, 15⟩⟩ := by rw [hcursors]; rfl
  have hnested : cursors[2]? = some ⟨start [7], some ⟨1, 0, 5⟩⟩ := by rw [hcursors]; rfl
  refine ⟨hcursors, (hinside first hmem).2.2.2 1, hfixed first hmem .word rfl .shortBuffer rfl,
    hmoves 1 first hfirst _, ?_, ?_⟩
  · obtain ⟨p, hp, -, hafter, hwindow⟩ :=
      hpiece 2 ⟨start [7], some ⟨1, 0, 5⟩⟩ ⟨1, 0, 5⟩ hnested rfl
    exact ⟨p, hp, hafter, hwindow⟩
  · exact hordered 1 3 first _ ⟨0, 0, 10⟩ ⟨0, 10, 15⟩ (by decide) hfirst hlast rfl rfl rfl

end Michelson.Cursor
