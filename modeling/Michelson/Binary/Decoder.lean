/-
# Decoders

A decoder reads a value from the front of a byte string and leaves the bytes behind it; a decoder
that fails leaves the bytes it has not read yet.  A `Cursor` is a window of bytes with a position
in it, moved by decoders.
-/
import Michelson.Error

namespace Michelson

/-- A reader of bytes.  The state is the bytes that are left. -/
abbrev Decoder (α : Type) := EStateM Error Bytes α

namespace Bytes

/-- Cuts a byte string behind its first `n` bytes, if it has that many. -/
def cut? : Nat → Bytes → Option (Bytes × Bytes)
  | 0, b => some ([], b)
  | _ + 1, [] => none
  | n + 1, x :: b => (cut? n b).map fun (head, rest) => (x :: head, rest)

theorem cut?_eq_some_iff {n : Nat} {b head rest : Bytes} :
    cut? n b = some (head, rest) ↔ b = head ++ rest ∧ head.length = n := by
  induction n generalizing b head with
  | zero => cases head <;> simp [cut?, eq_comm]
  | succ n ih =>
    cases b with
    | nil => cases head <;> simp [cut?]
    | cons x b =>
      simp only [cut?, Option.map_eq_some_iff, Prod.mk.injEq, Prod.exists]
      constructor
      · rintro ⟨h, r, e, rfl, rfl⟩
        obtain ⟨rfl, rfl⟩ := ih.1 e
        simp
      · rintro ⟨e, l⟩
        cases head with
        | nil => simp at l
        | cons y head =>
          simp only [List.cons_append, List.cons.injEq] at e
          exact ⟨head, rest, ih.2 ⟨e.2, by simpa using l⟩, by simp [e.1], rfl⟩

end Bytes

namespace Decoder

variable {α : Type}

/-- Reads one byte. -/
def byte : Decoder UInt8
  | [] => .error .shortBuffer []
  | x :: rest => .ok x rest

/-- Reads `n` bytes; moves nothing when there are not so many. -/
def take (n : Nat) : Decoder Bytes := fun b =>
  match Bytes.cut? n b with
  | some (head, rest) => .ok head rest
  | none => .error .shortBuffer b

/-- Reads a number of four big-endian bytes. -/
def word : Decoder Nat := do
  return Bytes.toNat (← take 4)

/-- Reads a length of four bytes and that many bytes. -/
def block : Decoder Bytes := do
  let n ← word
  fun b => match Bytes.cut? n b with
    | some (head, rest) => .ok head rest
    | none => .error (.invalidLength (.declared n b.length)) b

/-- A value, or an error that moves nothing. -/
def lift (x : Except Error α) : Decoder α := fun b =>
  match x with
  | .ok a => .ok a b
  | .error e => .error e b

/-- The items that a reader finds in a window until nothing is left of it.  An item is at least one
byte long, so there are no more than `fuel` of them in a window of that length; `stuck` is the
error of a reader that finds more. -/
def items {ε : Type} (stuck : ε) (item : EStateM ε Bytes α) :
    (fuel : Nat) → Bytes → Except ε (List α)
  | _, [] => .ok []
  | 0, _ :: _ => .error stuck
  | fuel + 1, x :: b =>
    match item (x :: b) with
    | .ok a rest => (items stuck item fuel rest).map (a :: ·)
    | .error e _ => .error e

/-- The items that fill a whole window. -/
def fill (item : Decoder α) (window : Bytes) : Except Error (List α) :=
  items .shortBuffer item window.length window

/-- Reads a value that takes up a whole byte string. -/
def runAll (d : Decoder α) (b : Bytes) : Except Error α :=
  match d b with
  | .ok a [] => .ok a
  | .ok _ rest => .error (.trailingBytes rest.length)
  | .error e _ => .error e

end Decoder

/-- A position in a window of bytes. -/
structure Cursor where
  /-- The bytes of the window. -/
  window : Bytes
  /-- The bytes behind the position. -/
  rest : Bytes
deriving DecidableEq, Repr

namespace Cursor

variable {α : Type}

/-- The start of a window. -/
def start (window : Bytes) : Cursor := ⟨window, window⟩

/-- The number of bytes before the position. -/
def position (c : Cursor) : Nat := c.window.length - c.rest.length

/-- The number of bytes behind the position. -/
def remaining (c : Cursor) : Nat := c.rest.length

/-- Whether the position is at the end of the window. -/
def isEmpty (c : Cursor) : Bool := c.rest.isEmpty

/-- Runs a decoder and moves to where it stops. -/
def read (d : Decoder α) (c : Cursor) : Except Error α × Cursor :=
  match d c.rest with
  | .ok a rest => (.ok a, { c with rest })
  | .error e rest => (.error e, { c with rest })

/-- Reads a length and returns the start of the window of that many bytes. -/
def block (c : Cursor) : Except Error Cursor × Cursor :=
  read (do return start (← Decoder.block)) c

end Cursor

end Michelson
