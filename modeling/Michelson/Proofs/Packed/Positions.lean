/-
# What opening leaves alone

A tree is opened in place: the walk goes down from the root and puts other trees where byte strings
were.  No node above or beside such a leaf takes part in this.  A position of a tree is the list of
the parts to go to (`nodeAt?`), and both walks keep every position together with the root of the node
there (`SameRoot`), unless this node is a byte string.  What they have in common is one step
(`IsOnBytes`): a node that is no byte string keeps its root, and the walk goes on in its parts.

The walk that reads printable text is undone by `closeText`, since the text has the bytes that were
there, and a mark tells it from the texts of the tree.

The main statement is `nodeAt?_openWithin_and_openAscii`.
-/
import Michelson.Proofs.Base58
import Michelson.Proofs.Packed.Opening

namespace Michelson

namespace Bytes

lemma isAscii_iff {b : Bytes} : b.isAscii ↔ b ≠ [] ∧ ∀ c ∈ b, 0x20 ≤ c ∧ c ≤ 0x7e := by
  simp [isAscii]

end Bytes

namespace Utf8

lemma utf8Size_ofNat {c : UInt8} (h : c ≤ 0x7e) : (Char.ofNat c.toNat).utf8Size = 1 := by
  have hall : ∀ n < 0x7f, (Char.ofNat n).utf8Size = 1 := by decide
  exact hall c.toNat (Nat.lt_succ_of_le (UInt8.le_iff_toNat_le.1 h))

/-- Printable characters are written as the bytes that they were read from. -/
lemma encode_ofAscii {b : Bytes} (h : b.isAscii) : encode (ofAscii b) = b := by
  have hsize : ∀ x ∈ b.map fun c => Char.ofNat c.toNat, x.utf8Size = 1 := by
    intro x hx
    obtain ⟨c, hc, rfl⟩ := List.mem_map.1 hx
    exact utf8Size_ofNat ((Bytes.isAscii_iff.1 h).2 c hc).2
  have hcodes : (fun c : UInt8 => (Char.ofNat c.toNat).val.toUInt8) = id := funext toUInt8_ofNat
  rw [ofAscii, encode_ofList hsize, List.map_map]
  exact (congrArg (b.map ·) hcodes).trans (List.map_id b)

end Utf8

namespace Expr

variable {e m n a : Expr} {path : List Nat} {i : Nat} {b : Bytes}

/-! ### Positions -/

/-- The node at a position: at each level, the path says which argument or item to go to. -/
def nodeAt? : (path : List Nat) → Expr → Option Expr
  | [], e => some e
  | i :: path, e => (e.arg? i).bind (nodeAt? path)

lemma nodeAt?_cons_eq_some_iff :
    e.nodeAt? (i :: path) = some n ↔ ∃ a, e.arg? i = some a ∧ a.nodeAt? path = some n :=
  Option.bind_eq_some_iff

/-- A byte string has no parts. -/
lemma bytes?_eq_none_of_arg? (h : e.arg? i = some a) : e.bytes? = none := by
  cases e with
  | literal l u => cases h
  | seq items u => rfl
  | app p args annots w u => rfl

/-- Nodes with the same root differ at most in what is below them.  They are the same literal, or
both sequences, or apply the same primitive with the same annotations and in the same form; both
are marked or none; and they have the same number of parts. -/
structure SameRoot (n m : Expr) : Prop where
  root : n.withArgs [] = m.withArgs []
  count : n.args.length = m.args.length

namespace SameRoot

/-- A node with other parts, as many as it had, has the same root. -/
lemma withArgs_map (n : Expr) (f : Expr → Expr) : n.SameRoot (n.withArgs (n.args.map f)) where
  root := (withArgs_withArgs n (n.args.map f) []).symm
  count := by rw [args_withArgs_map, List.length_map]

lemma isUnpacked_eq (h : n.SameRoot m) : m.isUnpacked = n.isUnpacked := by
  have hmark (e : Expr) : (e.withArgs []).isUnpacked = e.isUnpacked := by cases e <;> rfl
  rw [← hmark m, ← h.root, hmark n]

end SameRoot

/-! ### Walks on byte strings -/

/-- A walk changes nothing but byte strings: of any other node it keeps the root and goes on in the
parts.  Here `f depth` is the walk from `depth` levels below the root of the tree on. -/
def IsOnBytes (f : Nat → Expr → Expr) : Prop :=
  ∀ depth n, n.bytes? = none → f depth n = n.withArgs (n.args.map (f (depth + 1)))

section

variable {f : Nat → Expr → Expr}

lemma IsOnBytes.sameRoot (hf : IsOnBytes f) (depth : Nat) (h : n.bytes? = none) :
    n.SameRoot (f depth n) := by
  rw [hf depth n h]
  exact .withArgs_map n _

/-- At a position of the tree is, after the walk, what the walk makes of the node there. -/
lemma IsOnBytes.nodeAt?_eq (hf : IsOnBytes f) (depth : Nat) (h : e.nodeAt? path = some n) :
    (f depth e).nodeAt? path = some (f (depth + path.length) n) := by
  induction path generalizing depth e with
  | nil =>
    cases h
    rfl
  | cons i path ih =>
    obtain ⟨a, ha, hn⟩ := nodeAt?_cons_eq_some_iff.1 h
    have hpart : (f depth e).arg? i = some (f (depth + 1) a) := by
      rw [arg?] at ha
      rw [hf depth e (bytes?_eq_none_of_arg? ha), arg?, args_withArgs_map, List.getElem?_map, ha]
      rfl
    refine nodeAt?_cons_eq_some_iff.2 ⟨_, hpart, ?_⟩
    rw [ih (depth + 1) hn, List.length_cons, Nat.add_assoc, Nat.add_comm 1]

end

lemma isOnBytes_openWithin (limit : Nat) : IsOnBytes fun depth => openWithin (limit - depth) := by
  intro depth n hn
  show openWithin (limit - depth) n = n.withArgs (n.args.map (openWithin (limit - (depth + 1))))
  rw [openWithin_eq, opened_of_bytes?_eq_none hn, Nat.sub_sub]

lemma openAsciiAll_eq_map (es : List Expr) : openAsciiAll es = es.map openAscii := by
  induction es with
  | nil => rfl
  | cons e es ih => rw [openAsciiAll, ih, List.map_cons]

lemma isOnBytes_openAscii : IsOnBytes fun _ => openAscii := by
  intro _ n hn
  show openAscii n = n.withArgs (n.args.map openAscii)
  rw [← openAsciiAll_eq_map]
  cases n with
  | literal l u =>
    rcases l with _ | _ | b
    · rfl
    · rfl
    · cases hn
  | seq items u => rfl
  | app p args annots w u => rfl

/-! ### Byte strings -/

/-- A byte string stays, or the root of the tree that it unpacks to is in its place. -/
lemma openWithin_bytes (budget : Nat) (h : n.bytes? = some b) :
    openWithin budget n = n ∨
      ∃ tree, unpack budget n = .ok tree ∧ tree.SameRoot (openWithin budget n) := by
  rcases opened_cases budget n with ⟨hsame, -⟩ | ⟨-, hok⟩
  · left
    obtain ⟨l, u, rfl⟩ : ∃ l u, n = literal l u := by
      cases n with
      | literal l u => exact ⟨l, u, rfl⟩
      | seq items u => cases h
      | app p args annots w u => cases h
    rw [openWithin_eq, hsame]
    rfl
  · right
    refine ⟨_, hok, ?_⟩
    rw [openWithin_eq]
    exact .withArgs_map _ _

lemma openAscii_bytes_of_isAscii (h : b.isAscii) (u : Bool) :
    openAscii (literal (.bytes b) u) = literal (.string (Utf8.ofAscii b)) true := by
  rw [openAscii, if_pos h]

lemma openAscii_bytes_of_not_isAscii (h : ¬ b.isAscii) (u : Bool) :
    openAscii (literal (.bytes b) u) = literal (.bytes b) u := by
  rw [openAscii, if_neg h]

/-! ### Back to bytes -/

mutual

/-- The tree with every marked text as the byte string of its UTF-8 form, without a mark. -/
def closeText : Expr → Expr
  | literal (.string s) true => literal (.bytes (Utf8.encode s)) false
  | literal l u => literal l u
  | seq items u => seq (closeTextAll items) u
  | app p args annots w u => app p (closeTextAll args) annots w u

/-- The trees with every marked text as a byte string. -/
def closeTextAll : List Expr → List Expr
  | [] => []
  | e :: rest => closeText e :: closeTextAll rest

end

lemma closeTextAll_eq_map (es : List Expr) : closeTextAll es = es.map closeText := by
  induction es with
  | nil => rfl
  | cons e es ih => rw [closeTextAll, ih, List.map_cons]

lemma closeText_withArgs (h : ∀ l u, e ≠ literal l u) (parts : List Expr) :
    closeText (e.withArgs parts) = e.withArgs (parts.map closeText) := by
  rw [← closeTextAll_eq_map]
  cases e with
  | literal l u => exact absurd rfl (h l u)
  | seq items u => rfl
  | app p args annots w u => rfl

lemma closeText_openAscii_literal (l : Literal) :
    closeText (openAscii (literal l false)) = literal l false := by
  rcases l with i | s | b
  · rfl
  · rfl
  · by_cases hascii : b.isAscii
    · rw [openAscii_bytes_of_isAscii hascii, closeText, Utf8.encode_ofAscii hascii]
    · rw [openAscii_bytes_of_not_isAscii hascii, closeText]
      exact nofun

/-- In a tree without marks, the marked texts are those that were byte strings. -/
lemma closeText_openAscii (h : ∀ n ∈ e.nodes, n.isUnpacked = false) :
    closeText (openAscii e) = e := by
  induction e using inductArgs with
  | node e ih =>
    obtain ⟨hmark, hparts⟩ := forall_mem_nodes.1 h
    by_cases hleaf : ∃ l u, e = literal l u
    · obtain ⟨l, u, rfl⟩ := hleaf
      obtain rfl : u = false := hmark
      exact closeText_openAscii_literal l
    · have hne : ∀ l u, e ≠ literal l u := fun l u heq => hleaf ⟨l, u, heq⟩
      have hbytes : e.bytes? = none := by
        cases e with
        | literal l u => exact absurd rfl (hne l u)
        | seq items u => rfl
        | app p args annots w u => rfl
      have hstep : openAscii e = e.withArgs (e.args.map openAscii) :=
        isOnBytes_openAscii 0 e hbytes
      have hback : e.args.map (closeText ∘ openAscii) = e.args.map id :=
        List.map_congr_left fun a ha => ih a ha (hparts a ha)
      rw [hstep, closeText_withArgs hne, List.map_map, hback, List.map_id, withArgs_args]

/-! ### Both walks -/

/-- Opening a tree touches byte strings only.  At every position of the tree where something else
is, the opened tree has a node with the same root.  Where a byte string is, the walk over packed
bytes leaves this byte string or puts a marked node there, with the root of the tree that the byte
string unpacks to within what the budget leaves at this depth; and the walk over text puts the
marked text with the same bytes in the place of those that are printable ASCII, and leaves all
others.  In a tree without marks, the bytes of the marked texts give the tree back. -/
theorem nodeAt?_openWithin_and_openAscii (e : Expr) :
    (∀ limit path n, e.nodeAt? path = some n →
      ∃ m, (openWithin limit e).nodeAt? path = some m ∧
        (n.bytes? = none → n.SameRoot m) ∧
        ∀ b, n.bytes? = some b → m = n ∨
          m.isUnpacked = true ∧
            ∃ tree, unpack (limit - path.length) n = .ok tree ∧ tree.SameRoot m) ∧
    (∀ path n, e.nodeAt? path = some n →
      ∃ m, (openAscii e).nodeAt? path = some m ∧
        (n.bytes? = none → n.SameRoot m) ∧
        ∀ b, n.bytes? = some b →
          ((b ≠ [] ∧ ∀ c ∈ b, 0x20 ≤ c ∧ c ≤ 0x7e) →
            ∃ s, Utf8.encode s = b ∧ m = literal (.string s) true) ∧
          (¬ (b ≠ [] ∧ ∀ c ∈ b, 0x20 ≤ c ∧ c ≤ 0x7e) → m = n)) ∧
    ((∀ n ∈ e.nodes, n.isUnpacked = false) → closeText (openAscii e) = e) := by
  refine ⟨fun limit path n hn => ?_, fun path n hn => ?_, closeText_openAscii⟩
  · have hwalk := isOnBytes_openWithin limit
    have hm := hwalk.nodeAt?_eq 0 hn
    rw [Nat.zero_add] at hm
    refine ⟨_, hm, hwalk.sameRoot path.length, fun b hb => ?_⟩
    rcases openWithin_bytes (limit - path.length) hb with hsame | ⟨tree, hok, hroot⟩
    · exact Or.inl hsame
    · exact Or.inr ⟨by rw [hroot.isUnpacked_eq, isUnpacked_of_unpack hok], tree, hok, hroot⟩
  · have hm := isOnBytes_openAscii.nodeAt?_eq 0 hn
    refine ⟨_, hm, isOnBytes_openAscii.sameRoot 0, fun b hb => ?_⟩
    obtain ⟨u, rfl⟩ : ∃ u, n = literal (.bytes b) u := by
      rcases n with ⟨_ | _ | _, u⟩ | _ | _ <;> cases hb
      exact ⟨u, rfl⟩
    constructor
    · intro h
      have hascii := Bytes.isAscii_iff.2 h
      exact ⟨_, Utf8.encode_ofAscii hascii, openAscii_bytes_of_isAscii hascii u⟩
    · intro h
      exact openAscii_bytes_of_not_isAscii (fun hascii => h (Bytes.isAscii_iff.1 hascii)) u

/-- A pair of a printable byte and of packed bytes: the pair stays in the wide form with its
annotation, the packed bytes are replaced by the option that they hold, and as text only the
printable byte is read. -/
theorem nodeAt?_openWithin_and_openAscii_pair :
    let opt := app (.data .some) [apply0 (.data .unit)] [] false true
    let e := app (.data .pair) [bytes [97], bytes [5, 5, 9, 3, 11]] ["%x"] true false
    e.nodeAt? [] = some e ∧ e.nodeAt? [0] = some (bytes [97]) ∧
      e.nodeAt? [1] = some (bytes [5, 5, 9, 3, 11]) ∧ (∀ n ∈ e.nodes, n.isUnpacked = false) ∧
      e.SameRoot (openWithin 2 e) ∧ (openWithin 2 e).nodeAt? [1] = some opt ∧
      opt.isUnpacked = true ∧
      (∃ s, Utf8.encode s = [97] ∧
        (openAscii e).nodeAt? [0] = some (literal (.string s) true)) ∧
      (openAscii e).nodeAt? [1] = some (bytes [5, 5, 9, 3, 11]) ∧
      closeText (openAscii e) = e := by
  intro opt e
  obtain ⟨hpacked, htext, hback⟩ := nodeAt?_openWithin_and_openAscii e
  have hroot : e.nodeAt? [] = some e := rfl
  have hfirst : e.nodeAt? [0] = some (bytes [97]) := rfl
  have hsecond : e.nodeAt? [1] = some (bytes [5, 5, 9, 3, 11]) := rfl
  have hmarks : ∀ n ∈ e.nodes, n.isUnpacked = false := by decide +kernel
  have hopened : (openWithin 2 e).nodeAt? [1] = some opt := by rfl
  refine ⟨hroot, hfirst, hsecond, hmarks, ?_, hopened, ?_, ?_, ?_, hback hmarks⟩
  · obtain ⟨m, hm, hsame, -⟩ := hpacked 2 [] e hroot
    cases hm
    exact hsame rfl
  · obtain ⟨m, hm, -, hbytes⟩ := hpacked 2 [1] _ hsecond
    obtain rfl := Option.some.inj (hopened.symm.trans hm)
    rcases hbytes _ rfl with heq | ⟨hmark, -⟩
    · cases congrArg bytes? heq
    · exact hmark
  · obtain ⟨m, hm, -, hbytes⟩ := htext [0] _ hfirst
    obtain ⟨s, hs, rfl⟩ := (hbytes _ rfl).1 (by simp)
    exact ⟨s, hs, hm⟩
  · obtain ⟨m, hm, -, hbytes⟩ := htext [1] _ hsecond
    rw [hm, (hbytes _ rfl).2 (by simp)]

end Expr

end Michelson
