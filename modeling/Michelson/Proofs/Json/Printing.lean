/-
# Printed JSON is read back

The compact text of a value is read as the document of this value: every character of a text comes
back from its escape, nothing in the text is taken for a blank or for a bracket, and the fuel of
the reader, twice the length of the text and two more, pays for every item and every member.  Numbers
are left out, since the values that are made from trees have none (`IsNumberless`).

The levels of the reader count only afterwards, when the value is taken from the document, so a text
whose value nests too deep is read and then refused.  The main statement is `parse?_print`.
-/
import Michelson.Json.Document
import Michelson.Json.Printer
import Michelson.Proofs.Json.Nesting

namespace Michelson

namespace Document

open Json (escape printText)

variable {c : Char} {cs rest : List Char}

/-! ### Texts -/

lemma readParts_short {e : Char} (he : shortEscape? e = some c) :
    readParts ('\\' :: e :: cs) = (readParts cs).map (Prod.map (.char c :: ·) id) := by
  have hunit : e ≠ 'u' := by
    rintro rfl
    cases he
  rw [readParts.eq_4 e cs fun _ _ _ _ _ hu _ => hunit hu, he]
  cases readParts cs <;> rfl

lemma readParts_unit {x y z w : Char} {n : Nat} (hn : hexWord? x y z w = some n) :
    readParts ('\\' :: 'u' :: x :: y :: z :: w :: cs) =
      (readParts cs).map (Prod.map (.unit n :: ·) id) := by
  rw [readParts, hn]
  cases readParts cs <;> rfl

lemma readParts_plain (hquote : c ≠ '"') (hescape : c ≠ '\\') (hcode : 0x20 ≤ c.toNat) :
    readParts (c :: cs) = (readParts cs).map (Prod.map (.char c :: ·) id) := by
  rw [readParts.eq_5 c cs hquote (fun _ _ _ _ _ h _ => hescape h) fun _ _ h _ => hescape h,
    if_neg (by omega)]
  cases readParts cs <;> rfl

/-- The digits in the escape of a control character spell its code. -/
lemma hexWord?_control : ∀ n < 0x20,
    hexWord? '0' '0' (Nat.digitChar (n / 16)) (Nat.digitChar (n % 16)) = some n := by
  decide

/-- A character is escaped by one letter or by its code, or stands for itself. -/
lemma escape_cases (c : Char) :
    (∃ e, shortEscape? e = some c ∧ escape c = ['\\', e]) ∨
      (c.toNat < 0x20 ∧ escape c =
        ['\\', 'u', '0', '0', Nat.digitChar (c.toNat / 16), Nat.digitChar (c.toNat % 16)]) ∨
      (c ≠ '"' ∧ c ≠ '\\' ∧ 0x20 ≤ c.toNat ∧ escape c = [c]) := by
  unfold escape
  split_ifs with hquote hback hb ht hn hf hr hcode
  · exact Or.inl ⟨'"', by rw [hquote]; rfl, rfl⟩
  · exact Or.inl ⟨'\\', by rw [hback]; rfl, rfl⟩
  · exact Or.inl ⟨'b', by rw [hb]; rfl, rfl⟩
  · exact Or.inl ⟨'t', by rw [ht]; rfl, rfl⟩
  · exact Or.inl ⟨'n', by rw [hn]; rfl, rfl⟩
  · exact Or.inl ⟨'f', by rw [hf]; rfl, rfl⟩
  · exact Or.inl ⟨'r', by rw [hr]; rfl, rfl⟩
  · exact Or.inr (Or.inl ⟨hcode, rfl⟩)
  · exact Or.inr (Or.inr ⟨hquote, hback, by omega, rfl⟩)

/-- The escape of a character is read as one part, which stands for the character. -/
lemma exists_part_escape (c : Char) : ∃ part,
    (∀ cs, readParts (escape c ++ cs) = (readParts cs).map (Prod.map (part :: ·) id)) ∧
      ∀ parts, joinParts (part :: parts) = (joinParts parts).map (c :: ·) := by
  rcases escape_cases c with ⟨e, he, hescape⟩ | ⟨hcode, hescape⟩ | ⟨hquote, hback, hcode, hescape⟩
  all_goals rw [hescape]
  · exact ⟨.char c, fun cs => readParts_short he, fun parts => by rw [joinParts]⟩
  · refine ⟨.unit c.toNat, fun cs => readParts_unit (hexWord?_control _ hcode), fun parts => ?_⟩
    -- a control character is no half of a pair
    have htrail : isTrail c.toNat = false := by simp [isTrail]; omega
    have hlead : isLead c.toNat = false := by simp [isLead]; omega
    rw [joinParts.eq_def]
    simp [htrail, hlead]
  · exact ⟨.char c, fun cs => readParts_plain hquote hback hcode, fun parts => by rw [joinParts]⟩

/-- A printed text is read back behind its opening quote. -/
lemma readText_escape (s : String) (rest : List Char) :
    readText (s.toList.flatMap escape ++ '"' :: rest) = some (some s, rest) := by
  have hparts : ∀ cs : List Char, ∃ parts, joinParts parts = some cs ∧
      readParts (cs.flatMap escape ++ '"' :: rest) = some (parts, rest) := by
    intro cs
    induction cs with
    | nil => exact ⟨[], rfl, by rw [List.flatMap_nil, List.nil_append, readParts]⟩
    | cons c cs ih =>
      obtain ⟨parts, hjoin, hread⟩ := ih
      obtain ⟨part, hpart, hchar⟩ := exists_part_escape c
      refine ⟨part :: parts, by rw [hchar, hjoin, Option.map_some], ?_⟩
      rw [List.flatMap_cons, List.append_assoc, hpart, hread]
      rfl
  obtain ⟨parts, hjoin, hread⟩ := hparts s.toList
  simp [readText, hread, hjoin]

end Document

namespace Json

/-! ### Values without numbers -/

/-- The values without numbers. -/
inductive IsNumberless : Json → Prop
  | null : IsNumberless null
  | bool (b : Bool) : IsNumberless (bool b)
  | text (s : String) : IsNumberless (text s)
  | array {items : List Json} (h : ∀ j ∈ items, IsNumberless j) : IsNumberless (array items)
  | object {members : List (String × Json)} (h : ∀ m ∈ members, IsNumberless m.2) :
      IsNumberless (object members)

/-- The characters that the text of a value without numbers starts with. -/
def isOpening (c : Char) : Bool := c ∈ ['n', 't', 'f', '"', '[', '\x7b']

variable {j : Json} {items : List Json} {members : List (String × Json)}

lemma IsNumberless.exists_opening (h : IsNumberless j) :
    ∃ c cs, printChars j = c :: cs ∧ isOpening c := by
  cases h with
  | null => exact ⟨_, _, rfl, rfl⟩
  | bool b => cases b <;> exact ⟨_, _, rfl, rfl⟩
  | text | array | object => exact ⟨_, _, rfl, rfl⟩

lemma printItems_cons_cons (j j' : Json) (more : List Json) :
    printItems (j :: j' :: more) = printChars j ++ ',' :: printItems (j' :: more) := rfl

lemma printMembers_singleton (name : String) (j : Json) :
    printMembers [(name, j)] = printText name ++ ':' :: printChars j := rfl

lemma printMembers_cons_cons (name : String) (j : Json) (m : String × Json)
    (more : List (String × Json)) : printMembers ((name, j) :: m :: more) =
      printText name ++ ':' :: (printChars j ++ ',' :: printMembers (m :: more)) := by
  simp [printMembers, printMember]

lemma exists_opening_printItems (h : ∀ j ∈ items, IsNumberless j) (hne : items ≠ []) :
    ∃ c cs, printItems items = c :: cs ∧ isOpening c := by
  cases items with
  | nil => exact absurd rfl hne
  | cons j more =>
    obtain ⟨c, cs, hj, hc⟩ := (h j List.mem_cons_self).exists_opening
    cases more with
    | nil => exact ⟨c, cs, hj, hc⟩
    | cons j' more => exact ⟨c, _, by rw [printItems_cons_cons, hj, List.cons_append], hc⟩

lemma exists_quote_printMembers (hne : members ≠ []) : ∃ cs, printMembers members = '"' :: cs := by
  cases members with
  | nil => exact absurd rfl hne
  | cons m more =>
    obtain ⟨name, j⟩ := m
    cases more with
    | nil => exact ⟨_, rfl⟩
    | cons m' more => exact ⟨_, rfl⟩

end Json

namespace Document

open Json

variable {d : Document} {fuel : Nat} {j : Json} {items : List Json}
  {members : List (String × Json)} {name : String}

/-! ### One step of the reader -/

lemma skipBlanks_cons (h : isBlank c = false) : skipBlanks (c :: cs) = c :: cs := by
  simp [skipBlanks, h]

lemma skipBlanks_opening (h : isOpening c) : skipBlanks (c :: cs) = c :: cs := by
  refine skipBlanks_cons ?_
  revert c
  simp [isOpening, isBlank]

lemma readItems_last (h : readValue fuel cs = (d, ']' :: rest)) :
    readItems (fuel + 1) cs = ([d], true, rest) := by
  simp [readItems, h, skipBlanks_cons, isBlank]

lemma readItems_more {tail : List Char} (h : readValue fuel cs = (d, ',' :: c :: tail))
    (hc : isOpening c) {ds : List Document} (htail : readItems fuel (c :: tail) = (ds, true, rest)) :
    readItems (fuel + 1) cs = (d :: ds, true, rest) := by
  have hcomma : skipBlanks (',' :: c :: tail) = ',' :: c :: tail := rfl
  simp only [readItems, h, hcomma, skipBlanks_opening hc]
  split
  · next heq =>
    -- an item does not start like the end of the array
    rw [(List.cons.inj heq).1] at hc
    exact absurd hc (by decide)
  · rw [htail]

lemma readMembers_last (h : readValue fuel cs = (d, '\x7d' :: rest)) :
    readMembers (fuel + 1) (printText name ++ ':' :: cs) = ([(name, d)], true, rest) := by
  simp [readMembers, printText, h, skipBlanks_cons, isBlank, readText_escape]

lemma readMembers_more {tail : List Char} (h : readValue fuel cs = (d, ',' :: '"' :: tail))
    {ds : List (String × Document)} (htail : readMembers fuel ('"' :: tail) = (ds, true, rest)) :
    readMembers (fuel + 1) (printText name ++ ':' :: cs) = ((name, d) :: ds, true, rest) := by
  simp [readMembers, printText, h, skipBlanks_cons, isBlank, readText_escape, htail]

lemma readValue_array {tail : List Char} (hc : isOpening c) {ds : List Document}
    (h : readItems fuel (c :: tail) = (ds, true, rest)) :
    readValue (fuel + 1) ('[' :: c :: tail) = (array ds true, rest) := by
  have hbracket : skipBlanks ('[' :: c :: tail) = '[' :: c :: tail := rfl
  simp only [readValue, hbracket, skipBlanks_opening hc]
  split
  · next heq =>
    rw [(List.cons.inj heq).1] at hc
    exact absurd hc (by decide)
  · rw [h]

lemma readValue_object {tail : List Char} {ds : List (String × Document)}
    (h : readMembers fuel ('"' :: tail) = (ds, true, rest)) :
    readValue (fuel + 1) ('\x7b' :: '"' :: tail) = (object ds true, rest) := by
  simp [readValue, skipBlanks_cons, isBlank, h]

/-! ### The run of the reader -/

/-- The text of a value is read as its document, with fuel for twice its length. -/
def ReadsPrinted (j : Json) : Prop :=
  ∀ fuel rest, 2 * (printChars j).length ≤ fuel →
    readValue fuel (printChars j ++ rest) = (ofJson j, rest)

lemma readItems_printItems (hnumberless : ∀ j ∈ items, IsNumberless j)
    (hread : ∀ j ∈ items, ReadsPrinted j) (hne : items ≠ [])
    (hfuel : 2 * (printItems items).length < fuel) :
    readItems fuel (printItems items ++ ']' :: rest) = (ofItems items, true, rest) := by
  induction items generalizing fuel with
  | nil => exact absurd rfl hne
  | cons j more ih =>
    obtain ⟨fuel, rfl⟩ : ∃ n, fuel = n + 1 := ⟨fuel - 1, by omega⟩
    have hj : ReadsPrinted j := hread j List.mem_cons_self
    cases more with
    | nil =>
      have hlength : (printItems [j]).length = (printChars j).length := rfl
      exact readItems_last (hj fuel _ (by omega))
    | cons j' more =>
      rw [printItems_cons_cons] at hfuel ⊢
      simp only [List.length_append, List.length_cons] at hfuel
      have hrest : ∀ a ∈ j' :: more, IsNumberless a :=
        fun a ha => hnumberless a (List.mem_cons_of_mem j ha)
      obtain ⟨c, cs, hcs, hc⟩ := exists_opening_printItems hrest (List.cons_ne_nil j' more)
      have hmore : readItems fuel (printItems (j' :: more) ++ ']' :: rest) =
          (ofItems (j' :: more), true, rest) :=
        ih hrest (fun a ha => hread a (List.mem_cons_of_mem j ha)) (List.cons_ne_nil j' more)
          (by omega)
      simp only [hcs, List.cons_append, List.append_assoc] at hmore ⊢
      exact readItems_more (hj fuel _ (by omega)) hc hmore

lemma readMembers_printMembers (hread : ∀ m ∈ members, ReadsPrinted m.2) (hne : members ≠ [])
    (hfuel : 2 * (printMembers members).length < fuel) :
    readMembers fuel (printMembers members ++ '\x7d' :: rest) =
      (ofMembers members, true, rest) := by
  induction members generalizing fuel with
  | nil => exact absurd rfl hne
  | cons m more ih =>
    obtain ⟨name, j⟩ := m
    obtain ⟨fuel, rfl⟩ : ∃ n, fuel = n + 1 := ⟨fuel - 1, by omega⟩
    have hj : ReadsPrinted j := hread (name, j) List.mem_cons_self
    cases more with
    | nil =>
      rw [printMembers_singleton] at hfuel ⊢
      simp only [List.length_append, List.length_cons] at hfuel
      rw [List.append_assoc, List.cons_append]
      exact readMembers_last (hj fuel _ (by omega))
    | cons m more =>
      rw [printMembers_cons_cons] at hfuel ⊢
      simp only [List.length_append, List.length_cons] at hfuel
      obtain ⟨cs, hcs⟩ := exists_quote_printMembers (List.cons_ne_nil m more)
      have hmore : readMembers fuel (printMembers (m :: more) ++ '\x7d' :: rest) =
          (ofMembers (m :: more), true, rest) :=
        ih (fun a ha => hread a (List.mem_cons_of_mem _ ha)) (List.cons_ne_nil m more) (by omega)
      simp only [hcs, List.cons_append, List.append_assoc] at hmore ⊢
      exact readMembers_more (hj fuel _ (by omega)) hmore

lemma readsPrinted_of_succ (hj : IsNumberless j)
    (h : ∀ fuel rest, 2 * (printChars j).length ≤ fuel + 1 →
      readValue (fuel + 1) (printChars j ++ rest) = (ofJson j, rest)) : ReadsPrinted j := by
  intro fuel rest hfuel
  obtain ⟨c, cs, hcs, -⟩ := hj.exists_opening
  cases fuel with
  | zero => simp [hcs] at hfuel
  | succ fuel => exact h fuel rest hfuel

/-- What is printed is read, whatever is behind it. -/
lemma readsPrinted (h : IsNumberless j) : ReadsPrinted j := by
  induction h with
  | null => exact readsPrinted_of_succ .null fun fuel rest hfuel => rfl
  | bool b =>
    refine readsPrinted_of_succ (.bool b) fun fuel rest hfuel => ?_
    cases b <;> rfl
  | text s =>
    refine readsPrinted_of_succ (.text s) fun fuel rest hfuel => ?_
    simp [printChars, printText, readValue, skipBlanks_cons, isBlank, readText_escape, ofJson]
  | @array items h ih =>
    refine readsPrinted_of_succ (.array h) fun fuel rest hfuel => ?_
    by_cases hne : items = []
    · rw [hne]
      rfl
    · have hitems : readItems fuel (printItems items ++ ']' :: rest) =
          (ofItems items, true, rest) :=
        readItems_printItems h ih hne (by simp [printChars] at hfuel; omega)
      obtain ⟨c, cs, hcs, hc⟩ := exists_opening_printItems h hne
      simp only [printChars, ofJson, hcs, List.cons_append, List.append_assoc,
        List.nil_append] at hitems ⊢
      exact readValue_array hc hitems
  | @object members h ih =>
    refine readsPrinted_of_succ (.object h) fun fuel rest hfuel => ?_
    by_cases hne : members = []
    · rw [hne]
      rfl
    · have hmembers : readMembers fuel (printMembers members ++ '\x7d' :: rest) =
          (ofMembers members, true, rest) :=
        readMembers_printMembers ih hne (by simp [printChars] at hfuel; omega)
      obtain ⟨cs, hcs⟩ := exists_quote_printMembers hne
      simp only [printChars, ofJson, hcs, List.cons_append, List.append_assoc,
        List.nil_append] at hmembers ⊢
      exact readValue_object hmembers

/-! ### The levels of the reader -/

/-- A value without numbers that is taken from its document nests no deeper than the levels. -/
lemma nesting_le_of_value?_ofJson (h : IsNumberless j) {levels : Nat} {k : Json}
    (hk : value? levels (ofJson j) = some k) : j.nesting ≤ levels := by
  induction h generalizing levels k with
  | null | bool b | text s => exact Nat.zero_le levels
  | array h ih =>
    obtain ⟨below, hlevels, hitems⟩ := exists_of_value?_array hk
    refine nesting_array_le_iff.2 ⟨below, hlevels, fun j hj => ?_⟩
    obtain ⟨k, hk⟩ := hitems j hj
    exact ih j hj hk
  | object h ih =>
    obtain ⟨below, hlevels, hmembers⟩ := exists_of_value?_object hk
    refine nesting_object_le_iff.2 ⟨below, hlevels, fun m hm => ?_⟩
    obtain ⟨k, hk⟩ := hmembers m hm
    exact ih m hm hk

end Document

/-- A printed value is parsed into the value of its document. -/
theorem Json.parse?_print {j : Json} (h : j.IsNumberless) :
    parse? j.print = (Document.ofJson j).value? maxLevels := by
  have hread := Document.readsPrinted h (2 * (printChars j).length + 2) [] (by omega)
  rw [List.append_nil] at hread
  simp [parse?, print, Document.ofChars, hread, Document.skipBlanks]

end Michelson
