/-
# Trees as JSON and back

The JSON form of a tree tells neither the marks of unpacked trees nor whether an application asks
for the wide form, so a tree is read back in its *canonical form*: no marks, and the wide form where
more than two arguments leave no other.  When the tree is higher than the limit the reading fails
with the limit.  As for bytes, both are proved at once by induction on the tree.

The members of a node that are empty are left out, and reading takes a missing member for an empty
one; with the texts of numbers, byte strings and names of primitives being read back, this is all
that a node needs (`ofJsonNode_toJson`).

The main statement is `ofJson_toJson`.
-/
import Michelson.Expr.Json
import Michelson.Proofs.Bytes.Hex
import Michelson.Proofs.Expr.RoundTrip
import Michelson.Proofs.Text.Decimal

namespace Michelson.Expr

mutual

/-- What reading the JSON form of a tree gives. -/
def canonical : Expr → Expr
  | literal l _ => literal l false
  | seq items _ => seq (canonicalAll items) false
  | app p args annots _ _ => app p (canonicalAll args) annots (2 < args.length) false

/-- The canonical forms of trees. -/
def canonicalAll : List Expr → List Expr
  | [] => []
  | e :: rest => canonical e :: canonicalAll rest

end

lemma canonicalAll_eq_map (es : List Expr) : canonicalAll es = es.map canonical := by
  induction es with
  | nil => rfl
  | cons e es ih => rw [canonicalAll, ih, List.map_cons]

/-- The canonical form of a tree is the same tree. -/
lemma same_canonical (e : Expr) : same e.canonical e := by
  induction e using Expr.induct with
  | literal l u => simp [same, canonical, compare]
  | seq items u ih =>
    rw [same, canonical, compare, canonicalAll_eq_map]
    exact compareAll_map_of_forall ih
  | app p args annots w u ih =>
    rw [same, canonical, compare, canonicalAll_eq_map, compareAll_map_of_forall ih]
    simp

/-! ### Reading a node whose parts can be read -/

/-- A reader of parts that takes a tree in canonical form when it has less than `levels` levels
below its root, and fails over the depth of all others. -/
def ReadsBelow (part : Json → Except Error Expr) (limit levels : Nat) (e : Expr) : Prop :=
  part e.toJson = if e.height < levels then .ok e.canonical else .error (.depthExceeded limit)

variable {part : Json → Except Error Expr} {limit levels : Nat}

lemma mapM_toJsonAll {es : List Expr} (h : ∀ e ∈ es, ReadsBelow part limit levels e) :
    (toJsonAll es).mapM part =
      if heightAll es ≤ levels then .ok (canonicalAll es) else .error (.depthExceeded limit) := by
  induction es with
  | nil => rfl
  | cons e es ih =>
    have hmax : heightAll (e :: es) ≤ levels ↔ e.height < levels ∧ heightAll es ≤ levels := by
      rw [heightAll, Nat.max_le, Nat.succ_le_iff]
    rw [toJsonAll, List.mapM_cons, h e List.mem_cons_self,
      ih fun a ha => h a (List.mem_cons_of_mem e ha)]
    -- reading stops at the first tree that is too high, with the error of all that follow it
    by_cases hhead : e.height < levels
    · by_cases htail : heightAll es ≤ levels
      · rw [if_pos hhead, if_pos htail, if_pos (hmax.2 ⟨hhead, htail⟩)]
        rfl
      · rw [if_pos hhead, if_neg htail, if_neg fun h => htail (hmax.1 h).2]
        rfl
    · rw [if_neg hhead, if_neg fun h => hhead (hmax.1 h).1]
      rfl

lemma readArgs_toJsonAll {args : List Expr} (h : ∀ a ∈ args, ReadsBelow part limit levels a) :
    readArgs part (if args.isEmpty then none else some (.array (toJsonAll args))) =
      if heightAll args ≤ levels then .ok (canonicalAll args)
      else .error (.depthExceeded limit) := by
  cases args with
  | nil => rfl
  | cons a args => exact mapM_toJsonAll h

lemma annotsOf_texts {annots : List String} (h : AreAnnots annots) :
    annotsOf (if annots.isEmpty then none else some (.array (annots.map .text))) = .ok annots := by
  have hmap : ∀ {l : List String}, AreAnnots l → (l.map Json.text).mapM annotOf = .ok l := by
    intro l hl
    induction l with
    | nil => rfl
    | cons a l ih =>
      have ha : annotOf (.text a) = .ok a := if_pos (hl a List.mem_cons_self)
      rw [List.map_cons, List.mapM_cons, ha, ih fun c hc => hl c (List.mem_cons_of_mem a hc)]
      rfl
  cases annots with
  | nil => rfl
  | cons a annots => exact hmap h

/-- The members of an application are found by their names, the empty ones not at all. -/
lemma exists_members (p : Primitive) (args : List Expr) (annots : List String) (w u : Bool) :
    ∃ members, toJson (app p args annots w u) = .object members ∧
      NameMap.find? "prim" members = some (.text p.name) ∧
      NameMap.find? "args" members =
        (if args.isEmpty then none else some (.array (toJsonAll args))) ∧
      NameMap.find? "annots" members =
        (if annots.isEmpty then none else some (.array (annots.map .text))) := by
  refine ⟨_, by rw [toJson], ?_, ?_, ?_⟩ <;> cases args <;> cases annots <;> rfl

lemma readLiteral_int (n : Int) : readLiteral [("int", .text (toString n))] = .ok (int n) := by
  have hfind : NameMap.find? "int" [("int", Json.text (toString n))] =
      some (.text (toString n)) := rfl
  simp only [readLiteral, hfind, textMember, Except.ok_bind, Decimal.int?_toString]

lemma readLiteral_bytes (b : Bytes) :
    readLiteral [("bytes", .text (Bytes.toHex b))] = .ok (bytes b) := by
  have hnone : ∀ name, name ≠ "bytes" →
      NameMap.find? name [("bytes", Json.text (Bytes.toHex b))] = none := by
    intro name hne
    simp [NameMap.find?, hne]
  have hfind : NameMap.find? "bytes" [("bytes", Json.text (Bytes.toHex b))] =
      some (.text (Bytes.toHex b)) := rfl
  simp only [readLiteral, hnone "int" (by decide), hnone "string" (by decide), hfind, textMember,
    Except.ok_bind, Bytes.ofHex_toHex]

lemma ofJsonNode_toJson {e : Expr} (hannots : AreAnnots e.annots)
    (hargs : ∀ a ∈ e.args, ReadsBelow part limit levels a) :
    ofJsonNode part e.toJson =
      if e.height ≤ levels then .ok e.canonical else .error (.depthExceeded limit) := by
  cases e with
  | literal l u =>
    rw [height, if_pos (Nat.zero_le levels), canonical]
    cases l with
    | int n => exact readLiteral_int n
    | string s => rfl
    | bytes b => exact readLiteral_bytes b
  | seq items u =>
    have hitems : ∀ a ∈ items, ReadsBelow part limit levels a := hargs
    rw [toJson, ofJsonNode, mapM_toJsonAll hitems, height, canonical]
    split <;> rfl
  | app p args annots w u =>
    have hparts : ∀ a ∈ args, ReadsBelow part limit levels a := hargs
    have hlist : AreAnnots annots := hannots
    obtain ⟨members, hmembers, hprim, hargsMember, hannotsMember⟩ :=
      exists_members p args annots w u
    have hname : readPrimitive (.text p.name) = .ok p := by
      simp only [readPrimitive, textMember, Except.ok_bind, Primitive.ofName?_name]
    have hlength : (canonicalAll args).length = args.length := by
      rw [canonicalAll_eq_map, List.length_map]
    rw [hmembers, ofJsonNode]
    simp only [hprim, hname, Except.ok_bind, hargsMember, hannotsMember, readArgs_toJsonAll hparts,
      annotsOf_texts hlist]
    rw [height, canonical]
    split
    · rw [Except.ok_bind, hlength]
      rfl
    · rfl

/-! ### Reading a tree within a limit -/

/-- A tree that is not too high is read back, and a tree that is too high is refused with the limit.
-/
lemma readsBelow_ofJsonWithin (limit : Nat) {e : Expr} (h : e.IsWellAnnotated) (levels : Nat) :
    ReadsBelow (ofJsonWithin limit levels) limit levels e := by
  induction e using inductArgs generalizing levels with
  | node e ih =>
    obtain ⟨hannots, hargs⟩ := isWellAnnotated_iff.1 h
    cases levels with
    | zero => rfl
    | succ levels =>
      rw [ReadsBelow, ofJsonWithin,
        ofJsonNode_toJson hannots fun a ha => ih a ha (hargs a ha) levels]
      simp only [Nat.lt_succ_iff]

lemma ofJson_toJson_of_isWellAnnotated (limit : Nat) {e : Expr} (h : e.IsWellAnnotated) :
    ofJson limit e.toJson =
      if e.height ≤ limit then .ok e.canonical else .error (.depthExceeded limit) := by
  have hread := readsBelow_ofJsonWithin limit h (limit + 1)
  simpa only [ReadsBelow, Nat.lt_succ_iff, ofJson] using hread

/-- A tree with annotations that can be written is read back from its JSON form under every limit:
in canonical form when it is not higher than the limit, and as a failure with the limit when it is
higher.  The canonical form is the same tree, annotations included. -/
theorem ofJson_toJson (e : Expr)
    (hannots : ∀ n ∈ e.nodes, ∀ a ∈ n.annots, a ≠ "" ∧ ' ' ∉ a.toList) :
    (∀ limit, ofJson limit e.toJson =
      if e.height ≤ limit then .ok e.canonical else .error (.depthExceeded limit)) ∧
      same e.canonical e := by
  have hwell : e.IsWellAnnotated := by
    intro n hn a ha
    exact isAnnot_iff.2 (hannots n hn a ha)
  exact ⟨fun limit => ofJson_toJson_of_isWellAnnotated limit hwell, same_canonical e⟩

/-- A pair in the wide form whose second part was unpacked: the JSON form has neither, and the byte
string two levels below the root is out of reach of the limit one. -/
theorem ofJson_toJson_pair :
    let e := app (.data .pair) [int (-6), seq [bytes [0, 255]] true] ["%x"] true false
    e.toJson = .object [("annots", .array [.text "%x"]),
        ("args", .array [.object [("int", .text "-6")],
          .array [.object [("bytes", .text "00ff")]]]),
        ("prim", .text "Pair")] ∧
      ofJson 2 e.toJson =
        .ok (app (.data .pair) [int (-6), list [bytes [0, 255]]] ["%x"] false false) ∧
      ofJson 1 e.toJson = .error (.depthExceeded 1) := by
  intro e
  have hannots : ∀ n ∈ e.nodes, ∀ a ∈ n.annots, a ≠ "" ∧ ' ' ∉ a.toList := by decide +kernel
  obtain ⟨hread, -⟩ := ofJson_toJson e hannots
  exact ⟨by rfl, hread 2, hread 1⟩

end Michelson.Expr
