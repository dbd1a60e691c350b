/-
# Streams one behind the other

Neither a length nor a mark stands between the changes of a stream, so where one stream ends and the
next one begins is left to the reader to find.  It does: a stream that is read consists of whole
entries, and behind the last of them the reader goes on as if it started there, since how far it may
go only depends on the bytes that are left (`items_eq_of_length_le`).  This holds of a second stream
that is malformed too, which is refused for the same reason as on its own.

The main statement is `decodeAll_append`.
-/
import Michelson.Proofs.BigMapChange.Shape

namespace Michelson.BigMapChange

open Decoder

variable {changes changes' : List BigMapChange} {b b' : Bytes}

/-- A change is at least one byte long. -/
lemma length_lt_of_decoder (b : Bytes) (e : BigMapChange) (rest : Bytes)
    (h : decoder b = .ok e rest) : rest.length < b.length := by
  obtain ⟨x, rfl, -⟩ := Entry.exists_of_decoder h
  have hpos := List.length_pos_of_ne_nil x.bytes_ne_nil
  rw [List.length_append]
  omega

/-- Behind the entries of a stream the reader goes on as at a start. -/
lemma decodeAll_entries_append {entries : List Entry}
    (hall : List.Forall₂ (fun x e => x.change? = some e) entries changes) (b : Bytes) :
    decodeAll (entries.flatMap Entry.bytes ++ b) = (decodeAll b).map (changes ++ ·) := by
  have hle := length_le_length_flatMap_bytes entries
  -- one turn for each entry, and the turns that are left are enough for the bytes behind them
  obtain ⟨fuel, hfuel, henough⟩ : ∃ fuel,
      (entries.flatMap Entry.bytes ++ b).length = entries.length + fuel ∧ b.length ≤ fuel := by
    rw [List.length_append]
    exact ⟨(entries.flatMap Entry.bytes).length - entries.length + b.length, by omega, by omega⟩
  rw [decodeAll, hfuel, items_entries hall,
    items_eq_of_length_le length_lt_of_decoder henough (Nat.le_refl b.length), ← decodeAll]

lemma decodeAll_append_eq_map (h : decodeAll b = .ok changes) (b' : Bytes) :
    decodeAll (b ++ b') = (decodeAll b').map (changes ++ ·) := by
  obtain ⟨entries, rfl, hall⟩ := decodeAll_eq_ok_iff.1 h
  exact decodeAll_entries_append hall b'

lemma encodeAll_append (h : encodeAll changes = .ok b) (h' : encodeAll changes' = .ok b') :
    encodeAll (changes ++ changes') = .ok (b ++ b') := by
  induction changes generalizing b with
  | nil =>
    cases h
    exact h'
  | cons e changes ih =>
    obtain ⟨head, tail, hhead, htail, rfl⟩ := encodeAll_cons_eq_ok_iff.1 h
    rw [List.cons_append]
    exact encodeAll_cons_eq_ok_iff.2 ⟨head, tail ++ b', hhead, ih htail, List.append_assoc _ _ _⟩

/-- A byte string behind a stream that is read adds its changes to those of the stream, or is
refused with the error that it is refused with on its own; and two lists of changes that can be
written are written one behind the other. -/
theorem decodeAll_append :
    (∀ b b' changes, decodeAll b = .ok changes →
      (∀ changes', decodeAll b' = .ok changes' → decodeAll (b ++ b') = .ok (changes ++ changes')) ∧
      ∀ fault, decodeAll b' = .error fault → decodeAll (b ++ b') = .error fault) ∧
    ∀ changes changes' b b', encodeAll changes = .ok b → encodeAll changes' = .ok b' →
      encodeAll (changes ++ changes') = .ok (b ++ b') := by
  refine ⟨fun b b' changes h => ⟨fun changes' h' => ?_, fun fault h' => ?_⟩, ?_⟩
  · rw [decodeAll_append_eq_map h, h', Except.map]
  · rw [decodeAll_append_eq_map h, h', Except.map]
  · intro changes changes' b b' h h'
    exact encodeAll_append h h'

/-- A removal of a whole map, and behind it a copy, a copy whose second number is cut off, and a
change of no kind. -/
theorem decodeAll_append_removal :
    let removal : Bytes := [0, 0, 0, 1, 1, 3, 6]
    let copied : Bytes := [255, 255, 255, 253, 3, 7, 7, 0, 1, 0, 2]
    decodeAll (removal ++ copied) = .ok [remove 1 none, { copy 1 2 with id := -3 }] ∧
      decodeAll (removal ++ copied.take 10) = .error (.core .shortBuffer) ∧
      decodeAll (removal ++ [0, 0, 0, 1, 9]) = .error (.shape (.unknownAction 9)) ∧
      encodeAll ([remove 1 none] ++ [copy 1 2]) =
        .ok (removal ++ [0, 0, 0, 2, 3, 7, 7, 0, 1, 0, 2]) := by
  intro removal copied
  obtain ⟨hread, hwrite⟩ := decodeAll_append
  let x : Entry := ⟨1, .remove, [3, 6], .data0 .none, rfl, by rfl⟩
  let y : Entry := ⟨-3, .copy, [7, 7, 0, 1, 0, 2], .data2 .pair (.int 1) (.int 2), rfl, by rfl⟩
  have hremoval : decodeAll removal = .ok [remove 1 none] :=
    decodeAll_eq_ok_iff.2 ⟨[x], by decide +kernel, .cons rfl .nil⟩
  have hcopied : decodeAll copied = .ok [{ copy 1 2 with id := -3 }] :=
    decodeAll_eq_ok_iff.2 ⟨[y], by decide +kernel, .cons rfl .nil⟩
  refine ⟨(hread _ _ _ hremoval).1 _ hcopied, (hread _ _ _ hremoval).2 _ ?_,
    (hread _ _ _ hremoval).2 _ ?_, hwrite _ _ _ _ ?_ ?_⟩ <;> rfl

end Michelson.BigMapChange
