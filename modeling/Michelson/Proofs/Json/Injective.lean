/-
# Printed JSON tells values apart

A printed value ends where it can be seen to end: a text at its quote, an array or an object at its
bracket, and a whole number at the first character that is none of a number.  So two values with the
same text are the same, whatever stands behind them (`printChars_append_inj`).

Numbers that are not whole are left out, since the values that are compared here have none
(`IsWhole`).
-/
import Michelson.Proofs.Json.Printing
import Michelson.Proofs.Text.Decimal

namespace Michelson

namespace Json

/-- The values whose numbers are whole. -/
inductive IsWhole : Json → Prop
  | null : IsWhole null
  | bool (b : Bool) : IsWhole (bool b)
  | int (n : Int) : IsWhole (int n)
  | text (s : String) : IsWhole (text s)
  | array {items : List Json} (h : ∀ j ∈ items, IsWhole j) : IsWhole (array items)
  | object {members : List (String × Json)} (h : ∀ m ∈ members, IsWhole m.2) :
      IsWhole (object members)

variable {j k : Json} {r s : List Char}

/-! ### Numbers and texts -/

/-- The characters of whole numbers. -/
def isNumeral (c : Char) : Bool := c.isDigit || c == '-'

/-- What a number in front of it ends at. -/
def Stops (cs : List Char) : Prop := ∀ c ∈ cs.head?, isNumeral c = false

lemma stops_cons {c : Char} (h : isNumeral c = false) (cs : List Char) : Stops (c :: cs) := by
  intro c' hc'
  rwa [← Option.some.inj hc']

lemma isNumeral_of_mem_toString {n : Int} {c : Char} (h : c ∈ (toString n).toList) :
    isNumeral c := by
  rw [Int.toString_eq_repr, Int.repr_eq_if] at h
  split at h
  · rw [Nat.toList_repr] at h
    simp [isNumeral, Decimal.isDigit_of_mem_toDigits h]
  · rw [String.toList_append, Nat.toList_repr] at h
    rcases List.mem_append.1 h with hminus | hdigit
    · obtain rfl : c = '-' := List.mem_singleton.1 hminus
      rfl
    · simp [isNumeral, Decimal.isDigit_of_mem_toDigits hdigit]

lemma toString_ne_nil (n : Int) : (toString n).toList ≠ [] := by
  intro h
  have hread := Decimal.int?_toString n
  rw [Decimal.int?, h] at hread
  cases hread

lemma takeWhile_isNumeral (n : Int) (hr : Stops r) :
    ((toString n).toList ++ r).takeWhile isNumeral = (toString n).toList := by
  have hstop : r.takeWhile isNumeral = [] := by
    cases r with
    | nil => rfl
    | cons c r => rw [List.takeWhile_cons_of_neg (by simp [hr c rfl])]
  rw [List.takeWhile_append_of_pos fun c hc => isNumeral_of_mem_toString hc, hstop, List.append_nil]

lemma toString_append_inj {n m : Int} (hr : Stops r) (hs : Stops s)
    (h : (toString n).toList ++ r = (toString m).toList ++ s) : n = m ∧ r = s := by
  have hdigits : (toString n).toList = (toString m).toList := by
    rw [← takeWhile_isNumeral n hr, h, takeWhile_isNumeral m hs]
  refine ⟨Decimal.toString_injective (String.toList_injective hdigits), ?_⟩
  rw [hdigits] at h
  exact List.append_cancel_left h

lemma printText_append_inj {a b : String} (h : printText a ++ r = printText b ++ s) :
    a = b ∧ r = s := by
  simp only [printText, List.cons_append, List.append_assoc, List.nil_append] at h
  have hread := Document.readText_escape a r
  rw [(List.cons.inj h).2, Document.readText_escape b s] at hread
  cases hread
  exact ⟨rfl, rfl⟩

/-! ### Lists -/

/-- What is printed for the members of a list, separated by commas. -/
def separated {α : Type} (p : α → List Char) : List α → List Char
  | [] => []
  | [a] => p a
  | a :: rest => p a ++ ',' :: separated p rest

lemma printItems_eq_separated (items : List Json) :
    printItems items = separated printChars items := by
  induction items with
  | nil => rfl
  | cons j rest ih =>
    cases rest with
    | nil => rfl
    | cons j' rest => exact congrArg (fun cs => printChars j ++ ',' :: cs) ih

lemma printMembers_eq_separated (members : List (String × Json)) :
    printMembers members = separated printMember members := by
  induction members with
  | nil => rfl
  | cons m rest ih =>
    cases rest with
    | nil => rfl
    | cons m' rest => exact congrArg (fun cs => printMember m ++ ',' :: cs) ih

/-- Behind a member of a list stands a comma or the bracket that closes the list. -/
lemma separated_append {α : Type} (p : α → List Char) (a : α) (rest : List α) (close : Char)
    (r : List Char) : separated p (a :: rest) ++ close :: r = p a ++
      if rest.isEmpty then close :: r else ',' :: (separated p rest ++ close :: r) := by
  cases rest with
  | nil => rfl
  | cons b rest => simp [separated]

/-- A printed list tells its members apart if each of them is told apart and none starts with the
bracket that closes the list. -/
lemma separated_append_inj {α : Type} {p : α → List Char} {close : Char}
    (hcomma : close ≠ ',') (hclose : isNumeral close = false) {as bs : List α}
    (hp : ∀ a ∈ as, ∀ b ∈ bs, ∀ r s, Stops r → Stops s → p a ++ r = p b ++ s → a = b ∧ r = s)
    (has : ∀ a ∈ as, ∃ c cs, p a = c :: cs ∧ c ≠ close)
    (hbs : ∀ b ∈ bs, ∃ c cs, p b = c :: cs ∧ c ≠ close)
    (h : separated p as ++ close :: r = separated p bs ++ close :: s) : as = bs ∧ r = s := by
  have hstops : ∀ (rest : List α) (r : List Char), Stops
      (if rest.isEmpty then close :: r else ',' :: (separated p rest ++ close :: r)) := by
    intro rest r
    split
    · exact stops_cons hclose r
    · exact stops_cons rfl _
  induction as generalizing bs with
  | nil =>
    cases bs with
    | nil => exact ⟨rfl, (List.cons.inj h).2⟩
    | cons b bs =>
      obtain ⟨c, cs, hb, hc⟩ := hbs b List.mem_cons_self
      rw [separated_append, hb] at h
      exact absurd (List.cons.inj h).1.symm hc
  | cons a as ih =>
    cases bs with
    | nil =>
      obtain ⟨c, cs, ha, hc⟩ := has a List.mem_cons_self
      rw [separated_append, ha] at h
      exact absurd (List.cons.inj h).1 hc
    | cons b bs =>
      rw [separated_append, separated_append] at h
      obtain ⟨rfl, hrest⟩ := hp a List.mem_cons_self b List.mem_cons_self _ _ (hstops as r)
        (hstops bs s) h
      -- behind equal members both lists go on or both end
      cases as with
      | nil =>
        cases bs with
        | nil => exact ⟨rfl, (List.cons.inj hrest).2⟩
        | cons b bs => exact absurd (List.cons.inj hrest).1 hcomma
      | cons a' as =>
        cases bs with
        | nil => exact absurd (List.cons.inj hrest).1.symm hcomma
        | cons b bs =>
          obtain ⟨hlists, hr⟩ := ih
            (fun a ha b hb => hp a (List.mem_cons_of_mem _ ha) b (List.mem_cons_of_mem _ hb))
            (fun a ha => has a (List.mem_cons_of_mem _ ha))
            (fun b hb => hbs b (List.mem_cons_of_mem _ hb)) (List.cons.inj hrest).2
          exact ⟨by rw [hlists], hr⟩

/-! ### Values -/

/-- The kind of a value. -/
def kind : Json → Nat
  | null => 0
  | bool _ => 1
  | number _ => 2
  | text _ => 3
  | array _ => 4
  | object _ => 5

/-- The kind of the values whose text starts with a character. -/
def kindOf (c : Char) : Nat :=
  if c = 'n' then 0
  else if c = 't' ∨ c = 'f' then 1
  else if isNumeral c then 2
  else if c = '"' then 3
  else if c = '[' then 4
  else if c = '\x7b' then 5
  else 6

lemma kindOf_of_isNumeral {c : Char} (h : isNumeral c) : kindOf c = 2 := by
  have hn : c ≠ 'n' := by
    rintro rfl
    cases h
  have htf : ¬ (c = 't' ∨ c = 'f') := by
    rintro (rfl | rfl) <;> cases h
  rw [kindOf, if_neg hn, if_neg htf, if_pos h]

/-- The first character of the text of a value tells its kind. -/
lemma exists_kindOf (h : IsWhole j) : ∃ c cs, printChars j = c :: cs ∧ kindOf c = kind j := by
  cases h with
  | null => exact ⟨_, _, rfl, rfl⟩
  | bool b => cases b <;> exact ⟨_, _, rfl, rfl⟩
  | int n =>
    obtain ⟨c, cs, hcs⟩ := List.exists_cons_of_ne_nil (toString_ne_nil n)
    refine ⟨c, cs, hcs, kindOf_of_isNumeral (isNumeral_of_mem_toString (n := n) ?_)⟩
    rw [hcs]
    exact List.mem_cons_self
  | text | array | object => exact ⟨_, _, rfl, rfl⟩

lemma kind_eq_of_append (hj : IsWhole j) (hk : IsWhole k)
    (h : printChars j ++ r = printChars k ++ s) : kind j = kind k := by
  obtain ⟨c, cs, hc, hkind⟩ := exists_kindOf hj
  obtain ⟨c', cs', hc', hkind'⟩ := exists_kindOf hk
  rw [hc, hc'] at h
  rw [← hkind, ← hkind', (List.cons.inj h).1]

lemma exists_ne_close (hj : IsWhole j) {close : Char} (hclose : kindOf close = 6) :
    ∃ c cs, printChars j = c :: cs ∧ c ≠ close := by
  obtain ⟨c, cs, hc, hkind⟩ := exists_kindOf hj
  refine ⟨c, cs, hc, ?_⟩
  rintro rfl
  rw [hclose] at hkind
  cases hj <;> cases hkind

/-- The text of a value whose numbers are whole determines the value and where it ends. -/
theorem printChars_append_inj (hj : IsWhole j) (hk : IsWhole k) (hr : Stops r) (hs : Stops s)
    (h : printChars j ++ r = printChars k ++ s) : j = k ∧ r = s := by
  have hkind := kind_eq_of_append hj hk h
  induction hj generalizing k r s with
  | null =>
    cases hk <;> cases hkind
    exact ⟨rfl, List.append_cancel_left h⟩
  | bool b =>
    cases hk <;> cases hkind
    rename_i b'
    cases b <;> cases b'
    · exact ⟨rfl, List.append_cancel_left h⟩
    · cases (List.cons.inj h).1
    · cases (List.cons.inj h).1
    · exact ⟨rfl, List.append_cancel_left h⟩
  | int n =>
    cases hk <;> cases hkind
    obtain ⟨rfl, hrest⟩ := toString_append_inj hr hs h
    exact ⟨rfl, hrest⟩
  | text a =>
    cases hk <;> cases hkind
    obtain ⟨rfl, hrest⟩ := printText_append_inj h
    exact ⟨rfl, hrest⟩
  | @array items hitems ih =>
    cases hk <;> cases hkind
    rename_i items' hitems'
    simp only [printChars, List.cons_append, List.append_assoc, List.nil_append,
      printItems_eq_separated, List.cons.injEq, true_and] at h
    obtain ⟨rfl, hrest⟩ := separated_append_inj (by decide) rfl
      (fun a ha b hb r s hr hs hab =>
        ih a ha (hitems' b hb) hr hs hab (kind_eq_of_append (hitems a ha) (hitems' b hb) hab))
      (fun a ha => exists_ne_close (hitems a ha) rfl)
      (fun b hb => exists_ne_close (hitems' b hb) rfl) h
    exact ⟨rfl, hrest⟩
  | @object members hmembers ih =>
    cases hk <;> cases hkind
    rename_i members' hmembers'
    simp only [printChars, List.cons_append, List.append_assoc, List.nil_append,
      printMembers_eq_separated, List.cons.injEq, true_and] at h
    have hmember : ∀ a ∈ members, ∀ b ∈ members', ∀ r s, Stops r → Stops s →
        printMember a ++ r = printMember b ++ s → a = b ∧ r = s := by
      rintro ⟨name, a⟩ ha ⟨name', b⟩ hb r s hr hs hab
      simp only [printMember, List.append_assoc, List.cons_append] at hab
      obtain ⟨rfl, hvalue⟩ := printText_append_inj hab
      have hab := (List.cons.inj hvalue).2
      obtain ⟨rfl, hrest⟩ := ih _ ha (hmembers' _ hb) hr hs hab
        (kind_eq_of_append (hmembers _ ha) (hmembers' _ hb) hab)
      exact ⟨rfl, hrest⟩
    have hquote : ∀ m : String × Json, ∃ c cs, printMember m = c :: cs ∧ c ≠ '\x7d' := by
      rintro ⟨name, j⟩
      exact ⟨'"', _, rfl, by decide⟩
    obtain ⟨rfl, hrest⟩ := separated_append_inj (by decide) rfl hmember (fun m _ => hquote m)
      (fun m _ => hquote m) h
    exact ⟨rfl, hrest⟩

/-- Values whose numbers are whole have the same text only if they are the same. -/
theorem print_injective (hj : IsWhole j) (hk : IsWhole k) (h : j.print = k.print) : j = k := by
  have hchars : printChars j ++ [] = printChars k ++ [] := by
    rw [List.append_nil, List.append_nil]
    exact String.ofList_injective h
  have hnil : Stops [] := fun c hc => by cases hc
  exact (printChars_append_inj hj hk hnil hnil hchars).1

end Json

end Michelson
