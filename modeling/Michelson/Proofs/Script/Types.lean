/-
# The types at the front of a script

The types of the parameter and of storage can be read without the rest of a script.  The short
reader takes two sections off the bytes behind the head of the program, so it sees neither the
sections behind them nor where the program ends.  On a script that the full reader accepts the two
sections are the first two of the program, and the types are those of the script unless a later
section takes the place of one of them or the program is kept whole
(`types_of_decodeTypes`).  The conditions cannot be dropped (`decodeTypes_ne_types`).
-/
import Michelson.Proofs.Script.RoundTrip

namespace Michelson

open Decoder ContractDecoder

/-- A readable section with a keyword and a type. -/
structure Expr.IsTypeSection (tree : Expr) (keyword : SectionKeyword) (type : Expr) : Prop where
  readable : tree.IsReadable (Expr.defaultLimit + 1)
  applies : tree.applies (.keyword keyword)
  arg : tree.arg? 0 = some type

namespace Script

variable {keyword : SectionKeyword} {b rest : Bytes} {type tree : Expr}

lemma typeSection_eq_ok_iff :
    typeSection keyword b = .ok type rest ↔
      ∃ tree : Expr, b = tree.spelling ++ rest ∧ tree.IsTypeSection keyword type := by
  constructor
  · intro h
    obtain ⟨tree, mid, htree, hcheck⟩ := bind_eq_ok_iff.1 h
    obtain ⟨rfl, hreadable⟩ := Expr.decoder_eq_ok_iff.1 (ofDecoder_eq_ok_iff.1 htree)
    cases harg : tree.arg? 0 with
    | none =>
      simp only [harg] at hcheck
      exact absurd hcheck throw_ne_ok
    | some found =>
      simp only [harg] at hcheck
      by_cases happlies : tree.applies (.keyword keyword)
      · rw [if_pos happlies] at hcheck
        obtain ⟨rfl, rfl⟩ := pure_eq_ok_iff.1 hcheck
        exact ⟨tree, rfl, hreadable, happlies, harg⟩
      · rw [if_neg happlies] at hcheck
        exact absurd hcheck throw_ne_ok
  · rintro ⟨tree, rfl, hreadable, happlies, harg⟩
    have htree := ofDecoder_of_ok (Expr.decoder_eq_ok_iff.2 ⟨rfl, hreadable⟩ :
      Expr.decoder Expr.defaultLimit (tree.spelling ++ rest) = .ok tree rest)
    rw [typeSection, bind_apply_of_ok htree]
    simp only [harg, if_pos happlies]
    rfl

/-- The short reader behind the first length. -/
lemma typesDecoder_of_frame {mid : Bytes} {size : Nat} {tag : UInt8}
    (h : frame b = .ok size (tag :: mid)) :
    typesDecoder b =
      if tag = 0x02 then
        (do
          let _ ← frame
          let param ← typeSection .parameter
          let storage ← typeSection .storage
          return (param, storage) : ContractDecoder (Expr × Expr)) mid
      else .error (.framing (.programTag tag)) mid := by
  have htag : ofDecoder byte (tag :: mid) = .ok tag mid := rfl
  rw [typesDecoder, bind_apply_of_ok h, bind_apply_of_ok htag]
  by_cases hseq : tag = 0x02
  · have hsame : ¬ tag ≠ Kind.sequence.tag := not_not_intro hseq
    rw [if_pos hseq, if_neg hsame]
  · have hne : tag ≠ Kind.sequence.tag := hseq
    rw [if_neg hseq, if_pos hne]
    rfl

/-- What the short reader accepts: two sections behind the head of a sequence, with no regard to
where the sequence ends. -/
lemma decodeTypes_eq_ok_iff {param stored : Expr} :
    decodeTypes b = .ok (param, stored) ↔
      ∃ size content body, b = Bytes.word size ++ 0x02 :: (Bytes.word content ++ body) ∧
        size < 0x100000000 ∧ size ≤ body.length + 5 ∧ content < 0x100000000 ∧
        content ≤ body.length ∧
        ∃ first second : Expr, ∃ rest, body = first.spelling ++ (second.spelling ++ rest) ∧
          first.IsTypeSection .parameter param ∧ second.IsTypeSection .storage stored := by
  have hrun : decodeTypes b = .ok (param, stored) ↔
      ∃ rest, typesDecoder b = .ok (param, stored) rest := by
    rw [decodeTypes]
    split <;> simp_all
  have hlength : ∀ (content : Nat) (body : Bytes),
      (0x02 :: (Bytes.word content ++ body)).length = body.length + 5 := by
    intro content body
    rw [List.length_cons, List.length_append, Bytes.length_word]
    omega
  rw [hrun]
  constructor
  · rintro ⟨rest, h⟩
    obtain ⟨size, mid, hsize, htail⟩ := bind_eq_ok_iff.1 h
    obtain ⟨tag, mid, htag, -⟩ := bind_eq_ok_iff.1 htail
    obtain rfl := byte_eq_ok_iff.1 (ofDecoder_eq_ok_iff.1 htag)
    rw [typesDecoder_of_frame hsize] at h
    split at h
    case isFalse => cases h
    case isTrue hseq =>
      subst hseq
      obtain ⟨content, body, hcontent, h⟩ := bind_eq_ok_iff.1 h
      obtain ⟨param', mid, hfirst, h⟩ := bind_eq_ok_iff.1 h
      obtain ⟨stored', mid, hsecond, h⟩ := bind_eq_ok_iff.1 h
      obtain ⟨htypes, rfl⟩ := pure_eq_ok_iff.1 h
      cases htypes
      obtain ⟨rfl, hcontentLt, hcontentLe⟩ := frame_eq_ok_iff.1 hcontent
      obtain ⟨rfl, hlt, hle⟩ := frame_eq_ok_iff.1 hsize
      obtain ⟨first, rfl, hparam⟩ := typeSection_eq_ok_iff.1 hfirst
      obtain ⟨second, rfl, hstored⟩ := typeSection_eq_ok_iff.1 hsecond
      rw [hlength] at hle
      exact ⟨size, content, _, rfl, hlt, hle, hcontentLt, hcontentLe, first, second, _, rfl, hparam,
        hstored⟩
  · rintro ⟨size, content, body, rfl, hlt, hle, hcontentLt, hcontentLe, first, second, rest, rfl,
      hfirst, hsecond⟩
    refine ⟨rest, ?_⟩
    have hsize := frame_eq_ok_iff.2 ⟨rfl, hlt, (hlength content _).symm ▸ hle⟩
    have hcontent := frame_eq_ok_iff.2 ⟨rfl, hcontentLt, hcontentLe⟩
    rw [typesDecoder_of_frame hsize, if_pos rfl, bind_apply_of_ok hcontent,
      bind_apply_of_ok (typeSection_eq_ok_iff.2 ⟨first, rfl, hfirst⟩),
      bind_apply_of_ok (typeSection_eq_ok_iff.2 ⟨second, rfl, hsecond⟩)]
    rfl

end Script

/-! ### The first bytes of trees and lengths -/

namespace Expr

/-- Only a sequence starts with the tag of sequences. -/
lemma eq_list_of_spelling {root : Expr} {tail : Bytes} {levels : Nat}
    (hroot : root.IsReadable levels) (h : root.spelling = 0x02 :: tail) :
    ∃ items, root = list items ∧ tail = (spellingAll items).sized := by
  obtain ⟨tail', htail⟩ := root.spelling_eq_cons
  have htag : root.kind.tag = 0x02 := (List.cons.inj (htail.symm.trans h)).1
  cases root with
  | literal l u =>
    cases l <;> simp only [kind, Kind.tag] at htag <;> exact absurd htag (by decide)
  | app p args annots w u =>
    have hle := (le_tag_app p args annots w u).1
    rw [htag] at hle
    exact absurd hle (by decide)
  | seq items u =>
    obtain rfl : u = false := hroot.isUnpacked_eq
    exact ⟨items, rfl, (List.cons.inj h).2.symm⟩

/-- A section with a type starts with one of the later tags. -/
lemma IsTypeSection.five_le_tag {tree type : Expr} {keyword : SectionKeyword}
    (h : tree.IsTypeSection keyword type) : 5 ≤ tree.kind.tag := by
  have happlies := Expr.applies_iff.1 h.applies
  cases tree with
  | literal l u => cases happlies
  | seq items u => cases happlies
  | app p args annots w u =>
    refine (le_tag_app p args annots w u).2 ?_
    rintro rfl
    cases h.arg

/-- The length of a payload below 80 MiB starts with a byte that starts no section with a type. -/
lemma IsTypeSection.spelling_ne_sized {tree type : Expr} {keyword : SectionKeyword}
    (h : tree.IsTypeSection keyword type) {payload : Bytes} (hlt : payload.length < 0x05000000)
    (rest : Bytes) : tree.spelling ++ rest ≠ payload.sized := by
  intro heq
  obtain ⟨tail, htail⟩ := tree.spelling_eq_cons
  rw [htail, Bytes.sized, Bytes.word, Bytes.ofNat] at heq
  have htag : tree.kind.tag = UInt8.ofNat (payload.length / Nat.pow 256 3) :=
    (List.cons.inj heq).1
  have hquot : payload.length / Nat.pow 256 3 < 5 := by
    have hpow : Nat.pow 256 3 = 16777216 := rfl
    rw [hpow]
    omega
  have hle : (5 : UInt8).toNat ≤ tree.kind.tag.toNat := UInt8.le_iff_toNat_le.1 h.five_le_tag
  rw [htag, UInt8.toNat_ofNat_of_lt' (by show _ < 256; omega)] at hle
  exact absurd hquot (Nat.not_lt.2 hle)

end Expr

namespace Script

variable {param stored : Expr}

/-- On a script the short reader finds the first two sections of the program, as long as the program
has two sections or the length of storage does not look like one. -/
lemma sections_of_decodeTypes {root v : Expr} (hroot : root.FitsFrame)
    (h : decodeTypes (root.spelling.sized ++ v.spelling.sized) = .ok (param, stored))
    (hroom : 2 ≤ root.args.length ∨ v.spelling.length < 0x05000000) :
    ∃ first second later, root = .list (first :: second :: later) ∧
      first.IsTypeSection .parameter param ∧ second.IsTypeSection .storage stored := by
  obtain ⟨size, content, body, hbytes, -, -, -, -, first, second, rest, rfl, hfirst, hsecond⟩ :=
    decodeTypes_eq_ok_iff.1 h
  -- the head of the program
  rw [Bytes.sized_append] at hbytes
  obtain ⟨-, hprogram⟩ := List.append_inj hbytes (by rw [Bytes.length_word, Bytes.length_word])
  obtain ⟨head, tail, hhead⟩ := List.exists_cons_of_ne_nil root.spelling_ne_nil
  rw [hhead, List.cons_append] at hprogram
  obtain ⟨rfl, hcontent⟩ := List.cons.inj hprogram
  obtain ⟨items, rfl, rfl⟩ := Expr.eq_list_of_spelling hroot.readable hhead
  rw [Bytes.sized_append] at hcontent
  obtain ⟨-, hbody⟩ := List.append_inj hcontent (by rw [Bytes.length_word, Bytes.length_word])
  have hitem : ∀ e ∈ items, e.IsReadable (Expr.defaultLimit + 1) := fun e he =>
    (hroot.readable.arg he).mono (Nat.le_succ _)
  -- the sections behind it
  match items, hroom with
  | [], hroom =>
    -- the first section would start with the length of storage
    have hlt := hroom.resolve_left (by simp [Expr.list, Expr.args])
    exact absurd hbody.symm (hfirst.spelling_ne_sized hlt _)
  | [only], hroom =>
    -- and here the second one would
    have hlt := hroom.resolve_left (by simp [Expr.list, Expr.args])
    rw [Expr.spellingAll, Expr.spellingAll, List.append_nil] at hbody
    obtain ⟨-, htail⟩ :=
      Expr.spelling_append_inj (hitem only List.mem_cons_self) hfirst.readable hbody
    exact absurd htail.symm (hsecond.spelling_ne_sized hlt rest)
  | e₁ :: e₂ :: later, _ =>
    rw [Expr.spellingAll, Expr.spellingAll, List.append_assoc, List.append_assoc] at hbody
    obtain ⟨rfl, htail⟩ :=
      Expr.spelling_append_inj (hitem _ List.mem_cons_self) hfirst.readable hbody
    obtain ⟨rfl, -⟩ := Expr.spelling_append_inj
      (hitem _ (List.mem_cons_of_mem _ List.mem_cons_self)) hsecond.readable htail
    exact ⟨e₁, e₂, later, rfl, hfirst, hsecond⟩

/-- The type of the only section with a keyword is the type that the program has there. -/
lemma type_of_only {items : List Expr} {only type : Expr} {keyword : SectionKeyword}
    (hraw : ¬ (Program.ofTree (.list items)).isRaw)
    (honly : (items.filter fun e => e.applies (.keyword keyword)) = [only])
    (harg : only.arg? 0 = some type) :
    ((Program.ofTree (.list items)).last? keyword).bind (Expr.arg? 0) = some type := by
  rw [Program.last?_ofTree hraw keyword, honly, List.getLast?_singleton]
  exact harg

/-- When the full reader and the short reader both accept, the short reader has read the first two
sections of the program, as long as the program has two sections or storage takes less than 80 MiB.
Unless the program is kept whole, the type of the parameter is then that of the script when no
later section is a parameter section, and the type of storage when none is a storage section. -/
theorem types_of_decodeTypes {b : Bytes} {s : Script} (h : decode b = .ok s)
    (htypes : decodeTypes b = .ok (param, stored)) :
    ∃ root t, framed "script" b = .ok root (Bytes.word t.length ++ t) ∧
      s.program = Program.ofTree root ∧
      (2 ≤ root.args.length ∨ t.length < 0x05000000 →
        ∃ first second later, root.args = first :: second :: later ∧
          first.applies (.keyword .parameter) ∧ first.arg? 0 = some param ∧
          second.applies (.keyword .storage) ∧ second.arg? 0 = some stored ∧
          (¬ s.program.isRaw →
            ((∀ e ∈ later, ¬ e.applies (.keyword .parameter)) →
              s.program.parameterType? = some param) ∧
            ((∀ e ∈ later, ¬ e.applies (.keyword .storage)) →
              s.program.storedType? = some stored))) := by
  obtain ⟨root, rfl, hroot, hstorage, hprogram⟩ := decode_eq_ok_iff.1 h
  refine ⟨root, s.storage.spelling, framed_eq_ok_iff.2 ⟨rfl, hroot⟩, hprogram, fun hroom => ?_⟩
  obtain ⟨first, second, later, rfl, hfirst, hsecond⟩ := sections_of_decodeTypes hroot htypes hroom
  refine ⟨first, second, later, rfl, hfirst.applies, hfirst.arg, hsecond.applies, hsecond.arg,
    fun hraw => ⟨fun hlater => ?_, fun hlater => ?_⟩⟩
  · have honly : ((first :: second :: later).filter fun e => e.applies (.keyword .parameter)) =
        [first] := by
      rw [List.filter_cons_of_pos hfirst.applies,
        List.filter_cons_of_neg (Program.not_applies_of_applies hsecond.applies (by decide)),
        List.filter_eq_nil_iff.2 hlater]
    exact hprogram ▸ type_of_only (hprogram ▸ hraw) honly hfirst.arg
  · have honly : ((first :: second :: later).filter fun e => e.applies (.keyword .storage)) =
        [second] := by
      rw [List.filter_cons_of_neg (Program.not_applies_of_applies hfirst.applies (by decide)),
        List.filter_cons_of_pos hsecond.applies, List.filter_eq_nil_iff.2 hlater]
    exact hprogram ▸ type_of_only (hprogram ▸ hraw) honly hsecond.arg

/-- The sections `parameter unit`, `storage nat` and `code {}`. -/
theorem types_of_decodeTypes_code :
    let s : Script := ⟨⟨some (.apply1 (.keyword .parameter) (.type0 .unit)),
      some (.apply1 (.keyword .storage) (.type0 .nat)),
      some (.apply1 (.keyword .code) (.list [])), [], none⟩, .int 0⟩
    let b : Bytes := [0, 0, 0, 20, 2, 0, 0, 0, 15, 5, 0, 3, 108, 5, 1, 3, 98, 5, 2, 2, 0, 0, 0, 0,
      0, 0, 0, 2, 0, 0]
    decode b = .ok s ∧ decodeTypes b = .ok (.type0 .unit, .type0 .nat) ∧
      s.program.parameterType? = some (.type0 .unit) ∧
      s.program.storedType? = some (.type0 .nat) := by
  intro s b
  have hb : decode b = .ok s := by rfl
  have htypes : decodeTypes b = .ok (.type0 .unit, .type0 .nat) := by rfl
  obtain ⟨root, t, hroot, -, hsections⟩ := types_of_decodeTypes hb htypes
  have hframed : framed "script" b =
      .ok (.list [.apply1 (.keyword .parameter) (.type0 .unit),
        .apply1 (.keyword .storage) (.type0 .nat), .apply1 (.keyword .code) (.list [])])
        [0, 0, 0, 2, 0, 0] := by rfl
  rw [hframed] at hroot
  obtain ⟨rfl, -⟩ := EStateM.Result.ok.inj hroot
  obtain ⟨first, second, later, hargs, -, -, -, -, hagree⟩ := hsections (.inl (by decide))
  obtain ⟨-, htail⟩ := List.cons.inj hargs
  obtain ⟨-, rfl⟩ := List.cons.inj htail
  obtain ⟨hparam, hstored⟩ := hagree (by decide)
  exact ⟨hb, htypes, hparam (by decide), hstored (by decide)⟩

/-! ### Where the two readers differ -/

/-- A storage section around bytes: its spelling, and that it can be read. -/
lemma spelling_storage (payload : Bytes) :
    (Expr.apply1 (.keyword .storage) (.bytes payload)).spelling = [5, 1, 10] ++ payload.sized := by
  show 5 :: 1 :: ((10 :: payload.sized ++ []) ++ []) = 5 :: 1 :: 10 :: payload.sized
  rw [List.append_nil, List.append_nil]

lemma isReadable_storage {payload : Bytes} (h : payload.IsShort) :
    (Expr.apply1 (.keyword .storage) (.bytes payload)).IsReadable (Expr.defaultLimit + 1) := by
  have hbytes : (Expr.bytes payload).IsReadable Expr.defaultLimit :=
    Expr.isReadable_literal (.bytes payload) (by simpa [Expr.payloads] using h)
  refine Expr.isReadable_of_args ?_ ?_ ?_ rfl
  · simpa [Expr.apply1, Expr.apply, Expr.args] using hbytes
  · simp [Expr.apply1, Expr.apply, Expr.annots, AreAnnots]
  · simp [Expr.apply1, Expr.apply, Expr.payloads]

/-- The length of a value of 80 MiB can spell a parameter section: the short reader runs past the
end of an empty program and takes the value of storage for its storage section. -/
lemma decodeTypes_past_program {payload : Bytes} (h : payload.length = 83886949) :
    ∃ s, decode ([0, 0, 0, 5, 2, 0, 0, 0, 0] ++ [5, 0, 3, 108] ++ [5, 1, 10] ++ payload.sized) =
        .ok s ∧ s.program = Program.empty ∧
      decodeTypes ([0, 0, 0, 5, 2, 0, 0, 0, 0] ++ [5, 0, 3, 108] ++ [5, 1, 10] ++ payload.sized) =
        .ok (.type0 .unit, .bytes payload) := by
  have hpayload : payload.IsShort := by
    rw [Bytes.IsShort, h]
    decide
  have hlength : ([5, 1, 10] ++ payload.sized : Bytes).length = 83886956 := by
    rw [List.length_append, Bytes.length_sized, h]
    rfl
  have hvalue := isReadable_storage hpayload
  have hfits : (Expr.apply1 (.keyword .storage) (.bytes payload)).FitsFrame := by
    refine ⟨hvalue, ?_⟩
    rw [Bytes.IsShort, spelling_storage, hlength]
    decide
  have hframe : (Expr.apply1 (.keyword .storage) (.bytes payload)).spelling.sized =
      [5, 0, 3, 108] ++ ([5, 1, 10] ++ payload.sized) := by
    rw [Bytes.sized, spelling_storage, hlength]
    rfl
  have hempty : (Expr.list []).FitsFrame := by
    refine ⟨(Expr.decode_eq_ok_iff.1 (by rfl : Expr.decode Expr.defaultLimit [2, 0, 0, 0, 0] = _)).2,
      ?_⟩
    show 5 < 0x100000000
    decide
  have hparam : (Expr.apply1 (.keyword .parameter) (.type0 .unit)).IsReadable
      (Expr.defaultLimit + 1) :=
    (Expr.decode_eq_ok_iff.1 (by rfl : Expr.decode Expr.defaultLimit [5, 0, 3, 108] = _)).2
  refine ⟨⟨Program.empty, .apply1 (.keyword .storage) (.bytes payload)⟩,
    decode_eq_ok_iff.2 ⟨.list [], ?_, hempty, hfits, rfl⟩, rfl, ?_⟩
  · rw [hframe]
    rfl
  · refine decodeTypes_eq_ok_iff.2 ⟨5, 0, [5, 0, 3, 108] ++ ([5, 1, 10] ++ payload.sized), rfl,
      by decide, by omega, by decide, Nat.zero_le _,
      .apply1 (.keyword .parameter) (.type0 .unit), .apply1 (.keyword .storage) (.bytes payload), [],
      ?_, ⟨hparam, rfl, rfl⟩, ⟨hvalue, rfl, rfl⟩⟩
    rw [spelling_storage, List.append_nil]
    rfl

/-- Three scripts whose types the short reader does not give.  The first has a second parameter
section behind the storage section.  The second has an instruction there and is kept whole.  The
third has no sections, and the length of its storage is taken for one. -/
theorem decodeTypes_ne_types :
    let twice : Bytes := [0, 0, 0, 17, 2, 0, 0, 0, 12, 5, 0, 3, 98, 5, 1, 3, 98, 5, 0, 3, 108,
      0, 0, 0, 2, 3, 11]
    let whole : Bytes := [0, 0, 0, 15, 2, 0, 0, 0, 10, 5, 0, 3, 98, 5, 1, 3, 98, 3, 79,
      0, 0, 0, 2, 3, 11]
    let payload : Bytes := List.replicate 83886949 0
    let past : Bytes := [0, 0, 0, 5, 2, 0, 0, 0, 0] ++ [5, 0, 3, 108] ++ [5, 1, 10] ++ payload.sized
    (∃ s, decode twice = .ok s ∧ decodeTypes twice = .ok (.type0 .nat, .type0 .nat) ∧
      s.program.parameterType? = some (.type0 .unit) ∧
      s.program.parameterType? ≠ some (.type0 .nat)) ∧
    (∃ s, decode whole = .ok s ∧ decodeTypes whole = .ok (.type0 .nat, .type0 .nat) ∧
      s.program.parameterType? = none ∧ s.program.storedType? = none) ∧
    (∃ s, decode past = .ok s ∧ decodeTypes past = .ok (.type0 .unit, .bytes payload) ∧
      s.program.parameterType? = none ∧ s.program.storedType? = none) := by
  intro twice whole payload past
  refine ⟨?_, ?_, ?_⟩
  · refine ⟨⟨⟨some (.apply1 (.keyword .parameter) (.type0 .unit)),
      some (.apply1 (.keyword .storage) (.type0 .nat)), none, [], none⟩, .data0 .unit⟩,
      by rfl, by rfl, rfl, ?_⟩
    intro hparam
    cases hparam
  · exact ⟨⟨Program.ofRaw (.list [.apply1 (.keyword .parameter) (.type0 .nat),
      .apply1 (.keyword .storage) (.type0 .nat), .apply0 (.instruction .unit)]), .data0 .unit⟩,
      by rfl, by rfl, rfl, rfl⟩
  · have hlength : payload.length = 83886949 := List.length_replicate
    obtain ⟨s, hs, hempty, htypes⟩ := decodeTypes_past_program hlength
    exact ⟨s, hs, htypes, by rw [hempty]; rfl, by rw [hempty]; rfl⟩

end Script

end Michelson
