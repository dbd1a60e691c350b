/-
# Writing a script that was read

Reading a script puts its sections in their places, and writing it writes them in one order.  So
the bytes may change, but only once: what is written is read as the same script again, because the
tree of the kept sections is no longer than the tree that was read, and as readable.

The main statement is `reencode_of_decode`, which also says for which programs the bytes stay.
-/
import Michelson.Proofs.Script.Framing
import Michelson.Proofs.Script.Sections

namespace Michelson

open Decoder

namespace Expr

/-- Trees that are among others have a spelling that is no longer. -/
lemma length_spellingAll_le {es es' : List Expr} (h : es.Subperm es') :
    (spellingAll es).length ≤ (spellingAll es').length := by
  obtain ⟨mid, hperm, hsub⟩ := h
  have hlength : ∀ es : List Expr,
      (spellingAll es).length = (es.map fun e => e.spelling.length).sum := by
    intro es
    rw [spellingAll_eq_flatMap, List.length_flatMap]
  calc (spellingAll es).length = (es.map fun e => e.spelling.length).sum := hlength es
    _ = (mid.map fun e => e.spelling.length).sum := ((hperm.map _).sum_eq).symm
    _ ≤ (es'.map fun e => e.spelling.length).sum := (hsub.map _).sum_le_sum (by simp)
    _ = (spellingAll es').length := (hlength es').symm

lemma length_spelling_list (es : List Expr) :
    (list es).spelling.length = 5 + (spellingAll es).length := by
  rw [list, spelling, List.length_cons, Bytes.length_sized]
  omega

/-- A sequence of some of the items of a readable sequence is readable. -/
lemma IsReadable.list_of_subperm {items kept : List Expr} {levels : Nat}
    (h : (list items).IsReadable (levels + 1)) (hkept : kept.Subperm items) :
    (list kept).IsReadable (levels + 1) := by
  have hargs : ∀ a ∈ kept, a.IsReadable levels := fun a ha => h.arg (hkept.subset ha)
  refine isReadable_of_args hargs (by simp [list, annots, AreAnnots]) ?_ ?_
  · have hshort : (spellingAll items).IsShort := by
      simpa [list, payloads] using (hasShortPayloads_iff.1 h.spellable.payloads).1
    have hkeptShort : (spellingAll kept).IsShort := (length_spellingAll_le hkept).trans_lt hshort
    simpa [list, payloads] using hkeptShort
  · rw [list, normal, normalAll_eq_self hargs]

end Expr

namespace Program

/-- The tree of the kept sections is as readable as the tree they come from, and not longer. -/
lemma isReadable_toTree {root : Expr} {levels : Nat} (h : root.IsReadable (levels + 1)) :
    (ofTree root).toTree.IsReadable (levels + 1) ∧
      (ofTree root).toTree.spelling.length ≤ root.spelling.length := by
  rcases ofTree_cases root with ⟨items, u, hroot, hfold⟩ | hraw
  · obtain rfl : u = false := by simpa [hroot, Expr.isUnpacked] using h.isUnpacked_eq
    have hlist : root = .list items := hroot
    have hkept : (ofTree root).kept.Subperm items := kept_subperm_of_foldlM hfold
    rw [(isSorted_empty.foldlM hfold).toTree_eq]
    refine ⟨(hlist ▸ h).list_of_subperm hkept, ?_⟩
    have hle := Expr.length_spellingAll_le hkept
    rw [Expr.length_spelling_list, hlist, Expr.length_spelling_list]
    rw [hlist] at hle
    omega
  · rw [hraw, toTree_ofRaw]
    exact ⟨h, Nat.le_refl _⟩

lemma fitsFrame_toTree {root : Expr} (h : root.FitsFrame) : (ofTree root).toTree.FitsFrame := by
  obtain ⟨hreadable, hle⟩ := isReadable_toTree h.readable
  exact ⟨hreadable, hle.trans_lt h.short⟩

end Program

namespace Script

open ContractDecoder

lemma encode_of_fitsFrame {s : Script} (hprogram : s.program.toTree.FitsFrame)
    (hstorage : s.storage.FitsFrame) :
    s.encode = .ok (s.program.toTree.spelling.sized ++ s.storage.spelling.sized) := by
  have hroot : s.program.encode = .ok s.program.toTree.spelling.sized := by
    rw [Program.encode, Expr.encode_of_isSpellable hprogram.readable.spellable, Except.ok_bind,
      encodeBlock_of_isShort hprogram.short]
  rw [encode, hroot, Except.ok_bind, Expr.encode_of_isSpellable hstorage.readable.spellable,
    Except.ok_bind, encodeBlock_of_isShort hstorage.short]
  rfl

/-- A script that was read can be written, and what is written is read as the same script.  The
bytes are the same as before exactly when the program was kept whole or its sections were a
parameter, a storage and a code section, each at most once, with views behind them.  A program that
is kept whole has no sections. -/
theorem reencode_of_decode {b : Bytes} {s : Script} (h : decode b = .ok s) :
    ∃ root rest b', framed "script" b = .ok root rest ∧ s.program = Program.ofTree root ∧
      s.encode = .ok b' ∧ decode b' = .ok s ∧
      (b' = b ↔ s.program.isRaw ∨ Program.InOrder root.args) ∧
      (s.program.isRaw → s.program.param = none ∧ s.program.storage = none ∧
        s.program.code = none ∧ s.program.views = []) := by
  obtain ⟨root, rfl, hroot, hstorage, hprogram⟩ := decode_eq_ok_iff.1 h
  have hkept : s.program.toTree.FitsFrame := hprogram ▸ Program.fitsFrame_toTree hroot
  refine ⟨root, s.storage.spelling.sized, _, framed_eq_ok_iff.2 ⟨rfl, hroot⟩, hprogram,
    encode_of_fitsFrame hkept hstorage, ?_, ?_, ?_⟩
  · -- the tree that is written may be another one, but it is taken apart into the same program
    refine decode_eq_ok_iff.2 ⟨s.program.toTree, rfl, hkept, hstorage, ?_⟩
    rw [hprogram, Program.ofTree_toTree]
  · rw [hprogram, ← Program.toTree_ofTree_eq_iff hroot.readable.isUnpacked_eq, ← hprogram]
    constructor
    · -- equal bytes are read as equal trees
      intro hbytes
      obtain ⟨hspelling, -⟩ := Bytes.sized_append_inj hkept.short hroot.short hbytes
      have hfirst := Expr.decode_eq_ok_iff.2 ⟨rfl, hkept.readable⟩
      have hsecond := Expr.decode_eq_ok_iff.2 ⟨hspelling, hroot.readable⟩
      exact Except.ok.inj (hfirst.symm.trans hsecond)
    · intro htree
      rw [htree]
  · rw [hprogram]
    exact Program.isRaw_ofTree

/-- The sections `storage nat`, `parameter unit` and `storage unit`: the first is dropped and the
other two change places. -/
theorem reencode_of_decode_misplaced :
    let parameter := Expr.apply1 (.keyword .parameter) (.type0 .unit)
    let storage := Expr.apply1 (.keyword .storage) (.type0 .unit)
    let s : Script := ⟨⟨some parameter, some storage, none, [], none⟩, .data0 .unit⟩
    let b : Bytes := [0, 0, 0, 17, 2, 0, 0, 0, 12, 5, 1, 3, 98, 5, 0, 3, 108, 5, 1, 3, 108,
      0, 0, 0, 2, 3, 11]
    decode b = .ok s ∧ ∃ b', s.encode = .ok b' ∧ decode b' = .ok s ∧ b' ≠ b := by
  intro parameter storage s b
  have hb : decode b = .ok s := by rfl
  obtain ⟨root, rest, b', hroot, -, hencode, hdecode, hsame, -⟩ := reencode_of_decode hb
  have hframed : framed "script" b =
      .ok (.list [.apply1 (.keyword .storage) (.type0 .nat), parameter, storage])
        [0, 0, 0, 2, 3, 11] := by rfl
  rw [hframed] at hroot
  obtain ⟨rfl, rfl⟩ := EStateM.Result.ok.inj hroot
  refine ⟨hb, b', hencode, hdecode, fun heq => ?_⟩
  rcases hsame.1 heq with hraw | horder
  · cases hraw
  · have hkept := (Program.kept_eq_iff rfl).2 horder
    exact absurd (congrArg List.length hkept) (by decide)

end Script

end Michelson
