/-
# Decoders that find their own end

A decoder is *self-delimiting* when the bytes it takes are all that it goes by.  Whatever stands
behind them, it returns the same value and leaves what stands behind; when the last of them are
missing, it fails because bytes are missing, and not with a value or for another reason; and it
never complains about bytes that are left.

The length checks of the decoders compare with the bytes that remain, so at first sight the bytes
behind do matter.  But a check that has passed passes on longer input too, and one that fails says
itself that bytes are missing.  The main statement is `isCompositional_selfDelimiting`: the parts of
the reader of trees are self-delimiting, and so is one self-delimiting decoder after the other.
-/
import Michelson.Proofs.Binary.Assembly
import Michelson.Proofs.Binary.Zarith

namespace Michelson.Decoder

variable {α β : Type}

/-- The decoder fails for want of bytes when the last bytes of `b` are missing. -/
def Starves (d : Decoder α) (b : Bytes) : Prop :=
  ∀ c missing, c ++ missing = b → missing ≠ [] → ∃ e left, d c = .error e left ∧ e.IsShortage

/-- The decoder goes by the bytes it takes, and by nothing else. -/
structure SelfDelimiting (d : Decoder α) : Prop where
  taken {b rest : Bytes} {a : α} (h : d b = .ok a rest) :
    ∃ used, b = used ++ rest ∧ Reads d used a ∧ Starves d used
  ne_trailingBytes {b rest : Bytes} {k : Nat} : d b ≠ .error (.trailingBytes k) rest

variable {d : Decoder α} {f : α → Decoder β}

lemma starves_nil (d : Decoder α) : Starves d [] := by
  intro c missing h hne
  exact absurd (List.append_eq_nil_iff.1 h).2 hne

/-- Either no byte is there at all, or the first one is and those behind it are cut short. -/
lemma starves_cons {x : UInt8} {b : Bytes} (hnil : ∃ e left, d [] = .error e left ∧ e.IsShortage)
    (hcons : Starves (fun c => d (x :: c)) b) : Starves d (x :: b) := by
  rintro (_ | ⟨y, c⟩) missing h hne
  · exact hnil
  · obtain ⟨rfl, htail⟩ := List.cons.inj h
    exact hcons c missing htail hne

lemma Starves.bind {b b' : Bytes} {a : α} (hd : Starves d b) (hread : Reads d b a)
    (hf : Starves (f a) b') : Starves (d >>= f) (b ++ b') := by
  intro c missing h hne
  have hbehind : ∀ c', c' ++ missing = b' →
      ∃ e left, (d >>= f) (b ++ c') = .error e left ∧ e.IsShortage := by
    intro c' hc'
    rw [bind_apply_of_ok (hread c')]
    exact hf c' missing hc' hne
  rcases List.append_eq_append_iff.1 h with ⟨m, rfl, rfl⟩ | ⟨c', rfl, hc'⟩
  · -- the input ends within the bytes of the first decoder, or right behind them
    by_cases hm : m = []
    · subst hm
      rw [List.append_nil] at hbehind
      have hend := hbehind [] rfl
      rwa [List.append_nil] at hend
    · obtain ⟨e, left, herror, hshort⟩ := hd c m rfl hm
      exact ⟨e, left, bind_apply_of_error herror, hshort⟩
  · exact hbehind c' hc'.symm

namespace SelfDelimiting

/-! ### Putting decoders together -/

lemma pure (a : α) : SelfDelimiting (Pure.pure a : Decoder α) where
  taken := by
    intro b rest c h
    obtain ⟨rfl, rfl⟩ := pure_eq_ok_iff.1 h
    exact ⟨[], rfl, reads_pure c, starves_nil _⟩
  ne_trailingBytes := by
    intro b rest k h
    cases h

lemma throw {e : Error} (he : ∀ k, e ≠ .trailingBytes k) :
    SelfDelimiting (MonadExcept.throw e : Decoder α) where
  taken h := absurd h throw_ne_ok
  ne_trailingBytes := by
    intro b rest k h
    cases h
    exact he k rfl

lemma bind (hd : SelfDelimiting d) (hf : ∀ a, SelfDelimiting (f a)) : SelfDelimiting (d >>= f) where
  taken := by
    intro b rest c h
    obtain ⟨a, mid, h1, h2⟩ := bind_eq_ok_iff.1 h
    obtain ⟨used, rfl, hread, hstarve⟩ := hd.taken h1
    obtain ⟨used', rfl, hread', hstarve'⟩ := (hf a).taken h2
    exact ⟨used ++ used', by rw [List.append_assoc], hread.bind hread', hstarve.bind hread hstarve'⟩
  ne_trailingBytes := by
    intro b rest k h
    cases hb : d b with
    | ok a mid =>
      rw [bind_apply_of_ok hb] at h
      exact (hf a).ne_trailingBytes h
    | error e mid =>
      rw [bind_apply_of_error hb] at h
      cases h
      exact hd.ne_trailingBytes hb

lemma lift {x : Except Error α} (hx : ∀ k, x ≠ .error (.trailingBytes k)) :
    SelfDelimiting (Decoder.lift x) where
  taken := by
    intro b rest a h
    cases x with
    | ok c =>
      cases h
      exact ⟨[], rfl, reads_lift a, starves_nil _⟩
    | error e => cases h
  ne_trailingBytes := by
    intro b rest k h
    cases x with
    | ok c => cases h
    | error e =>
      cases h
      exact hx k rfl

/-! ### Bytes -/

lemma byte : SelfDelimiting byte where
  taken := by
    intro b rest x h
    refine ⟨[x], byte_eq_ok_iff.1 h, reads_byte x, ?_⟩
    exact starves_cons ⟨.shortBuffer, [], rfl, trivial⟩ (starves_nil _)
  ne_trailingBytes := by
    rintro (_ | ⟨x, b⟩) rest k h <;> cases h

/-- Cutting off a number of bytes that is known, where too few of them are a shortage. -/
lemma cut (n : Nat) {err : Bytes → Error} (herr : ∀ b, (err b).IsShortage) :
    SelfDelimiting (fun b => match Bytes.cut? n b with
      | some (head, rest) => .ok head rest
      | none => .error (err b) b) where
  taken := by
    intro b rest head h
    have hcut : Bytes.cut? n b = some (head, rest) := by
      cases hb : Bytes.cut? n b with
      | none => simp [hb] at h
      | some p => simpa [hb, Prod.ext_iff] using h
    obtain ⟨rfl, rfl⟩ := Bytes.cut?_eq_some_iff.1 hcut
    refine ⟨head, rfl, fun rest => ?_, fun c missing hc hne => ?_⟩
    · have hcut : Bytes.cut? head.length (head ++ rest) = some (head, rest) :=
        Bytes.cut?_eq_some_iff.2 ⟨rfl, rfl⟩
      simp only [hcut]
    · have hcut : Bytes.cut? head.length c = none := by
        by_contra hsome
        obtain ⟨⟨head', rest'⟩, hsome⟩ := Option.ne_none_iff_exists'.1 hsome
        obtain ⟨rfl, hlength⟩ := Bytes.cut?_eq_some_iff.1 hsome
        have hmissing := List.length_pos_iff.2 hne
        have htotal := congrArg List.length hc
        simp only [List.length_append] at htotal
        omega
      exact ⟨err c, c, by simp only [hcut], herr c⟩
  ne_trailingBytes := by
    intro b rest k h
    cases hb : Bytes.cut? n b with
    | none =>
      simp only [hb, EStateM.Result.error.injEq] at h
      exact (herr b).ne_trailingBytes k h.1
    | some p => simp [hb] at h

/-! ### The items of a window -/

lemma items_ne_trailingBytes (hd : SelfDelimiting d) (k fuel : Nat) (b : Bytes) :
    items .shortBuffer d fuel b ≠ .error (.trailingBytes k) := by
  induction fuel generalizing b with
  | zero =>
    intro h
    cases b <;> cases h
  | succ fuel ih =>
    intro h
    rcases b with _ | ⟨x, b⟩
    · cases h
    · cases hx : d (x :: b) with
      | ok a rest =>
        simp only [items, hx] at h
        cases htail : items .shortBuffer d fuel rest with
        | ok as => simp [htail, Except.map] at h
        | error e =>
          simp only [htail, Except.map, Except.error.injEq] at h
          exact ih rest (h ▸ htail)
      | error e rest =>
        simp only [items, hx, Except.error.injEq] at h
        exact hd.ne_trailingBytes (h ▸ hx)

/-- What the items of a window complain about is never what is left of the window. -/
lemma fill_ne_trailingBytes (hd : SelfDelimiting d) (window : Bytes) (k : Nat) :
    fill d window ≠ .error (.trailingBytes k) :=
  hd.items_ne_trailingBytes k window.length window

/-! ### The groups of a number -/

/-- The groups of a number end with the first byte below 128, so a part of them has no end. -/
lemma starves_groups (n : Nat) : Starves Zarith.groups (Zarith.encodeGroups n) := by
  induction n using Nat.strongRecOn with
  | _ n ih =>
    have hnil : ∃ e left, Zarith.groups [] = .error e left ∧ e.IsShortage :=
      ⟨.shortBuffer, [], rfl, trivial⟩
    rw [Zarith.encodeGroups]
    split
    case isTrue => exact starves_cons hnil (starves_nil _)
    case isFalse hlarge =>
      refine starves_cons hnil fun c missing hc hne => ?_
      obtain ⟨e, left, herror, hshort⟩ := ih (n / 128) (by omega) c missing hc hne
      have hmore : ¬ UInt8.ofNat (128 + n % 128) < 128 := by
        rw [UInt8.lt_iff_toNat_lt, Zarith.toNat_digit (by omega)]
        exact Nat.not_lt.2 (Nat.le_add_right 128 _)
      exact ⟨e, left, by simp only [Zarith.groups, if_neg hmore, herror], hshort⟩

lemma groups : SelfDelimiting Zarith.groups where
  taken := by
    intro b rest n h
    obtain ⟨rfl, hpos⟩ := Zarith.groups_exact b n rest h
    exact ⟨_, rfl, Zarith.reads_groups hpos, starves_groups n⟩
  ne_trailingBytes := by
    intro b
    induction b with
    | nil => intro rest k h; cases h
    | cons x b ih =>
      intro rest k h
      rw [Zarith.groups] at h
      split at h
      · split at h <;> cases h
      · split at h
        case h_1 => cases h
        case h_2 e left herror =>
          cases h
          exact ih herror

end SelfDelimiting

/-- The parts of the reader of trees are self-delimiting, and running one self-delimiting decoder
after the other is. -/
lemma isCompositional_selfDelimiting : IsCompositional fun _ d => SelfDelimiting d where
  pure := SelfDelimiting.pure
  throw := SelfDelimiting.throw
  bind := SelfDelimiting.bind
  byte := SelfDelimiting.byte
  cut n _ herr := SelfDelimiting.cut n herr
  groups := SelfDelimiting.groups
  fill hpart window := SelfDelimiting.lift (hpart.fill_ne_trailingBytes window)

end Michelson.Decoder
