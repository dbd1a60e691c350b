/-
# Frames and scripts in bytes

A frame is a tree behind the word of its length.  The reader of a frame takes the tree off the
outer bytes, not off a window of the declared length, and compares the lengths only afterwards, so
a tree could at first sight run into the bytes behind its frame.  It cannot: a tree marks its own
end, so the reader meets the same tree whatever stands behind (`framed_spelling`).

A script is one frame for its program and one for its storage with nothing behind them.  The main
statement is `decode_eq_ok_iff_frames`.
-/
import Michelson.Proofs.Expr.Exact
import Michelson.Script

namespace Michelson

open Decoder

/-! ### Two byte strings side by side -/

namespace Bytes

lemma sized_append_sized (c t : Bytes) :
    c.sized ++ t.sized = word c.length ++ c ++ word t.length ++ t := by
  rw [sized, sized, List.append_assoc, List.append_assoc, List.append_assoc]

/-- A payload and what stands behind it can be told apart by the word in front. -/
lemma sized_append_inj {a a' rest rest' : Bytes} (ha : a.IsShort) (ha' : a'.IsShort)
    (h : a.sized ++ rest = a'.sized ++ rest') : a = a' ∧ rest = rest' := by
  rw [sized_append, sized_append] at h
  have hwords : (word a.length).length = (word a'.length).length := by
    rw [length_word, length_word]
  obtain ⟨hword, htail⟩ := List.append_inj h hwords
  have hlength : a.length = a'.length := by rw [← toNat_word ha, hword, toNat_word ha']
  exact List.append_inj htail hlength

end Bytes

/-- A tree that can be read out of a frame. -/
structure Expr.FitsFrame (e : Expr) : Prop where
  readable : e.IsReadable (Expr.defaultLimit + 1)
  short : e.spelling.IsShort

lemma Expr.fitsFrame_iff {e : Expr} {c : Bytes} :
    c = e.spelling ∧ e.FitsFrame ↔ c.IsShort ∧ decode defaultLimit c = .ok e := by
  rw [decode_eq_ok_iff]
  constructor
  · rintro ⟨rfl, he⟩
    exact ⟨he.short, rfl, he.readable⟩
  · rintro ⟨hc, rfl, he⟩
    exact ⟨rfl, he, hc⟩

/-! ### Readers of contract data -/

namespace ContractDecoder

variable {α : Type}

lemma ofDecoder_of_ok {d : Decoder α} {b rest : Bytes} {a : α} (h : d b = .ok a rest) :
    ofDecoder d b = .ok a rest := by
  simp only [ofDecoder, h]

lemma ofDecoder_eq_ok_iff {d : Decoder α} {b rest : Bytes} {a : α} :
    ofDecoder d b = .ok a rest ↔ d b = .ok a rest := by
  cases h : d b <;> simp [ofDecoder, h]

lemma runAll_eq_ok_iff {d : ContractDecoder α} {b : Bytes} {a : α} :
    d.runAll b = .ok a ↔ d b = .ok a [] := by
  rw [runAll]
  split <;> simp_all

/-- The reader of a length refuses a length with too few bytes behind it. -/
lemma frame_word {n : Nat} (hn : n < 0x100000000) (b : Bytes) :
    frame (Bytes.word n ++ b) =
      if b.length < n then .error (.core .shortBuffer) b else .ok n b :=
  bind_apply_of_ok (ofDecoder_of_ok (reads_word hn b))

lemma frame_eq_ok_iff {b rest : Bytes} {n : Nat} :
    frame b = .ok n rest ↔
      b = Bytes.word n ++ rest ∧ n < 0x100000000 ∧ n ≤ rest.length := by
  constructor
  · intro h
    obtain ⟨size, mid, hword, hcheck⟩ := bind_eq_ok_iff.1 h
    obtain ⟨rfl, hsize⟩ := word_eq_ok_iff.1 (ofDecoder_eq_ok_iff.1 hword)
    split at hcheck
    case isTrue => cases hcheck
    case isFalse hle =>
      cases hcheck
      exact ⟨rfl, hsize, Nat.not_lt.1 hle⟩
  · rintro ⟨rfl, hn, hle⟩
    rw [frame_word hn, if_neg (Nat.not_lt.2 hle)]

/-- A frame around the spelling of a tree, whatever length it declares and whatever stands behind.
-/
lemma framed_spelling {e : Expr} (he : e.IsReadable (Expr.defaultLimit + 1)) {n : Nat}
    (hn : n < 0x100000000) (part : String) (rest : Bytes) :
    framed part (Bytes.word n ++ (e.spelling ++ rest)) =
      if (e.spelling ++ rest).length < n then .error (.core .shortBuffer) (e.spelling ++ rest)
      else if e.spelling.length = n then .ok e rest
      else .error (.framing (.size part n e.spelling.length)) rest := by
  have htree := ofDecoder_of_ok (Expr.decoder_eq_ok_iff.2 ⟨rfl, he⟩ :
    Expr.decoder Expr.defaultLimit (e.spelling ++ rest) = .ok e rest)
  have hread : (e.spelling ++ rest).length - rest.length = e.spelling.length := by
    rw [List.length_append, Nat.add_sub_cancel]
  by_cases hlt : (e.spelling ++ rest).length < n
  · have herror : frame (Bytes.word n ++ (e.spelling ++ rest)) =
        .error (.core .shortBuffer) (e.spelling ++ rest) := by
      rw [frame_word hn, if_pos hlt]
    rw [framed, bind_apply_of_error herror, if_pos hlt]
  · have hok : frame (Bytes.word n ++ (e.spelling ++ rest)) = .ok n (e.spelling ++ rest) := by
      rw [frame_word hn, if_neg hlt]
    have hget : ∀ b : Bytes, (get : ContractDecoder Bytes) b = .ok b b := fun _ => rfl
    rw [framed, bind_apply_of_ok hok, bind_apply_of_ok (hget _), bind_apply_of_ok htree,
      bind_apply_of_ok (hget _), hread, if_neg hlt]
    split <;> rfl

/-- A frame is read exactly when it declares the length of its tree. -/
lemma framed_eq_ok_iff {part : String} {b rest : Bytes} {e : Expr} :
    framed part b = .ok e rest ↔ b = e.spelling.sized ++ rest ∧ e.FitsFrame := by
  constructor
  · intro h
    obtain ⟨n, mid, hframe, htail⟩ := bind_eq_ok_iff.1 h
    obtain ⟨rfl, hn, hle⟩ := frame_eq_ok_iff.1 hframe
    obtain ⟨before, mid', hget, htail⟩ := bind_eq_ok_iff.1 htail
    cases hget
    obtain ⟨tree, left, htree, -⟩ := bind_eq_ok_iff.1 htail
    obtain ⟨rfl, hreadable⟩ := Expr.decoder_eq_ok_iff.1 (ofDecoder_eq_ok_iff.1 htree)
    -- the bytes are known to start with a tree, so the reader can only differ over the length
    rw [framed_spelling hreadable hn, if_neg (Nat.not_lt.2 hle)] at h
    split at h
    case isFalse => cases h
    case isTrue hsize =>
      cases h
      subst hsize
      exact ⟨(Bytes.sized_append _ _).symm, hreadable, hn⟩
  · rintro ⟨rfl, he⟩
    rw [Bytes.sized_append, framed_spelling he.readable he.short, if_neg (by simp), if_pos rfl]

end ContractDecoder

/-! ### Scripts -/

namespace Script

open ContractDecoder

/-- The bytes of two frames are those of one script, and the trees in the frames decide which. -/
lemma decode_eq_ok_iff {b : Bytes} {s : Script} :
    decode b = .ok s ↔ ∃ root, b = root.spelling.sized ++ s.storage.spelling.sized ∧
      root.FitsFrame ∧ s.storage.FitsFrame ∧ s.program = Program.ofTree root := by
  rw [decode, ContractDecoder.runAll_eq_ok_iff]
  constructor
  · intro h
    obtain ⟨program, mid, hprogram, htail⟩ := bind_eq_ok_iff.1 h
    obtain ⟨storage, mid', hstorage, hs⟩ := bind_eq_ok_iff.1 htail
    obtain ⟨root, mid'', hroot, hpure⟩ := bind_eq_ok_iff.1 hprogram
    obtain ⟨rfl, rfl⟩ := pure_eq_ok_iff.1 hs
    obtain ⟨rfl, rfl⟩ := pure_eq_ok_iff.1 hpure
    obtain ⟨rfl, hfitsRoot⟩ := framed_eq_ok_iff.1 hroot
    obtain ⟨rfl, hfits⟩ := framed_eq_ok_iff.1 hstorage
    exact ⟨root, by rw [List.append_nil], hfitsRoot, hfits, rfl⟩
  · rintro ⟨root, rfl, hroot, hstorage, hprogram⟩
    obtain ⟨program, storage⟩ := s
    obtain rfl : program = Program.ofTree root := hprogram
    have hfirst : framed "script" (root.spelling.sized ++ storage.spelling.sized) =
        .ok root storage.spelling.sized := framed_eq_ok_iff.2 ⟨rfl, hroot⟩
    have hsecond : framed "storage" storage.spelling.sized = .ok storage [] :=
      framed_eq_ok_iff.2 ⟨(List.append_nil _).symm, hstorage⟩
    have hprogram : Program.decoder (root.spelling.sized ++ storage.spelling.sized) =
        .ok (Program.ofTree root) storage.spelling.sized := by
      rw [Program.decoder, bind_apply_of_ok hfirst]
      rfl
    rw [decoder, bind_apply_of_ok hprogram, bind_apply_of_ok hsecond]
    rfl

/-- A failure to read the frame of the program is a failure to read the script. -/
lemma decode_of_program_error {b rest : Bytes} {e : ContractFault}
    (h : framed "script" b = .error e rest) : decode b = .error e := by
  have hprogram : Program.decoder b = .error e rest := bind_apply_of_error h
  rw [decode, ContractDecoder.runAll, decoder, bind_apply_of_error hprogram]

/-- A failure to read the frame of storage is a failure to read the script. -/
lemma decode_of_storage_error {b mid rest : Bytes} {root : Expr} {e : ContractFault}
    (hroot : framed "script" b = .ok root mid) (h : framed "storage" mid = .error e rest) :
    decode b = .error e := by
  have hprogram : Program.decoder b = .ok (Program.ofTree root) mid := bind_apply_of_ok hroot
  rw [decode, ContractDecoder.runAll, decoder, bind_apply_of_ok hprogram, bind_apply_of_error h]

/-- Of two scripts neither is the other with bytes added behind. -/
lemma eq_nil_of_decode_append {b b' : Bytes} {s s' : Script} (h : decode b = .ok s)
    (h' : decode (b ++ b') = .ok s') : b' = [] := by
  obtain ⟨root, rfl, hroot, hstorage, -⟩ := decode_eq_ok_iff.1 h
  obtain ⟨root', heq, hroot', hstorage', -⟩ := decode_eq_ok_iff.1 h'
  rw [List.append_assoc] at heq
  obtain ⟨-, htail⟩ := Bytes.sized_append_inj hroot.short hroot'.short heq
  rw [← List.append_nil s'.storage.spelling.sized] at htail
  exact (Bytes.sized_append_inj hstorage.short hstorage'.short htail).2

/-- The bytes that are read as a script are the spellings of two trees, each behind the word of its
length: the first is the program, the second is the value of storage, and nothing is left.  No
script is another one cut short or with bytes added behind, and a frame that declares another length
than that of its tree is refused, whatever stands behind it. -/
theorem decode_eq_ok_iff_frames :
    (∀ b s, decode b = .ok s ↔
      ∃ c t root v, c.length < 2 ^ 32 ∧ t.length < 2 ^ 32 ∧
        b = Bytes.word c.length ++ c ++ Bytes.word t.length ++ t ∧
        Expr.decode Expr.defaultLimit c = .ok root ∧ Expr.decode Expr.defaultLimit t = .ok v ∧
        s.program = Program.ofTree root ∧ s.storage = v) ∧
      (∀ b s b', decode b = .ok s → b' ≠ [] → ∀ s', decode (b ++ b') ≠ .ok s') ∧
      (∀ c root n rest, Expr.decode Expr.defaultLimit c = .ok root → n < 2 ^ 32 → n ≠ c.length →
        decode (Bytes.word n ++ c ++ rest) =
          .error (if (c ++ rest).length < n then .core .shortBuffer
            else .framing (.size "script" n c.length))) ∧
      (∀ c root t v n rest, c.length < 2 ^ 32 → Expr.decode Expr.defaultLimit c = .ok root →
        Expr.decode Expr.defaultLimit t = .ok v → n < 2 ^ 32 → n ≠ t.length →
        decode (Bytes.word c.length ++ c ++ Bytes.word n ++ t ++ rest) =
          .error (if (t ++ rest).length < n then .core .shortBuffer
            else .framing (.size "storage" n t.length))) := by
  refine ⟨fun b s => ?_, ?_, ?_, ?_⟩
  · rw [decode_eq_ok_iff]
    constructor
    · rintro ⟨root, rfl, hroot, hstorage, hprogram⟩
      obtain ⟨hc, hc'⟩ := Expr.fitsFrame_iff.1 ⟨rfl, hroot⟩
      obtain ⟨ht, ht'⟩ := Expr.fitsFrame_iff.1 ⟨rfl, hstorage⟩
      exact ⟨_, _, root, s.storage, hc, ht, Bytes.sized_append_sized _ _, hc', ht', hprogram, rfl⟩
    · rintro ⟨c, t, root, v, hc, ht, rfl, hroot, hv, hprogram, rfl⟩
      obtain ⟨rfl, hfitsRoot⟩ := Expr.fitsFrame_iff.2 ⟨hc, hroot⟩
      obtain ⟨rfl, hfits⟩ := Expr.fitsFrame_iff.2 ⟨ht, hv⟩
      exact ⟨root, (Bytes.sized_append_sized _ _).symm, hfitsRoot, hfits, hprogram⟩
  · intro b s b' h hne s' h'
    exact hne (eq_nil_of_decode_append h h')
  · -- another length in front of the program
    intro c root n rest hc hn hne
    obtain ⟨rfl, hroot⟩ := Expr.decode_eq_ok_iff.1 hc
    have hframed := framed_spelling hroot hn "script" rest
    rw [if_neg (Ne.symm hne)] at hframed
    rw [List.append_assoc]
    split at hframed
    case isTrue hlt => rw [decode_of_program_error hframed, if_pos hlt]
    case isFalse hle => rw [decode_of_program_error hframed, if_neg hle]
  · -- another length in front of storage
    intro c root t v n rest hshort hc ht hn hne
    obtain ⟨rfl, hroot⟩ := Expr.fitsFrame_iff.2 ⟨hshort, hc⟩
    obtain ⟨rfl, hv⟩ := Expr.decode_eq_ok_iff.1 ht
    have hbytes : Bytes.word root.spelling.length ++ root.spelling ++ Bytes.word n ++ v.spelling ++
        rest = root.spelling.sized ++ (Bytes.word n ++ (v.spelling ++ rest)) := by
      simp only [Bytes.sized, List.append_assoc]
    have hfirst : framed "script" (root.spelling.sized ++ (Bytes.word n ++ (v.spelling ++ rest))) =
        .ok root (Bytes.word n ++ (v.spelling ++ rest)) := framed_eq_ok_iff.2 ⟨rfl, hroot⟩
    have hframed := framed_spelling hv hn "storage" rest
    rw [if_neg (Ne.symm hne)] at hframed
    rw [hbytes]
    split at hframed
    case isTrue hlt => rw [decode_of_storage_error hfirst hframed, if_pos hlt]
    case isFalse hle => rw [decode_of_storage_error hfirst hframed, if_neg hle]

/-- The program with the sections `parameter unit` and `storage unit`, its storage being the unit.
-/
theorem decode_eq_ok_iff_frames_unit :
    let parameter := Expr.apply1 (.keyword .parameter) (.type0 .unit)
    let storage := Expr.apply1 (.keyword .storage) (.type0 .unit)
    let c : Bytes := [2, 0, 0, 0, 8, 5, 0, 3, 108, 5, 1, 3, 108]
    let b : Bytes := [0, 0, 0, 13] ++ c ++ [0, 0, 0, 2] ++ [3, 11]
    decode b = .ok ⟨⟨some parameter, some storage, none, [], none⟩, .data0 .unit⟩ ∧
      (∀ s, decode (b ++ [0]) ≠ .ok s) ∧
      decode ([0, 0, 0, 12] ++ c ++ [0, 0, 0, 2, 3, 11]) =
        .error (.framing (.size "script" 12 13)) ∧
      decode ([0, 0, 0, 13] ++ c ++ [0, 0, 0, 3] ++ [3, 11] ++ []) =
        .error (.core .shortBuffer) := by
  intro parameter storage c b
  obtain ⟨haccept, hbehind, hscript, hstorage⟩ := decode_eq_ok_iff_frames
  have hc : Expr.decode Expr.defaultLimit c = .ok (.list [parameter, storage]) := by rfl
  have ht : Expr.decode Expr.defaultLimit [3, 11] = .ok (.data0 .unit) := by rfl
  have hb : decode b = .ok ⟨⟨some parameter, some storage, none, [], none⟩, .data0 .unit⟩ :=
    (haccept b _).2 ⟨c, [3, 11], _, _, by decide, by decide, by decide, hc, ht, rfl, rfl⟩
  refine ⟨hb, hbehind b _ [0] hb (by decide), ?_, ?_⟩
  · exact hscript c _ 12 [0, 0, 0, 2, 3, 11] hc (by decide) (by decide)
  · have hword : Bytes.word c.length = [0, 0, 0, 13] := by decide
    rw [← hword]
    exact hstorage c _ [3, 11] _ 3 [] (by decide) hc ht (by decide) (by decide)

end Script

end Michelson
