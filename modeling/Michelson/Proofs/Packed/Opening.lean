/-
# Opening packed bytes everywhere

`openWithin` goes down a tree and opens the packed nodes it meets.  A node that is opened is
replaced by a tree, and the walk goes on in this tree, so the tree grows under way; what stops the
walk is the budget, one for all layers of packed bytes.

`openWithin_eq` is the step of the walk, the same with and without budget.  It is all that the rest
uses: the walk ends (`Opens` is the walk by its depth, and each node has one run), no opened tree
reaches below the budget (`Opens.height_le`), and the trees on which the walk changes nothing are
those without a node to open (`openWithin_eq_self_iff`).

The main statements are `openWithin_ends` and `unpack_leaf_of_openWithin`.
-/
import Michelson.Proofs.Packed

namespace Michelson.Expr

variable {e n tree : Expr} {limit : Nat}

@[simp] lemma height_markUnpacked (e : Expr) : e.markUnpacked.height = e.height := by
  rw [height_eq, height_eq e, args_markUnpacked]

/-! ### One node -/

lemma unpackUntagged_eq_ok {b : Bytes} (h : unpackBytes.unpackUntagged b = .ok tree) :
    (Bytes.isAscii b ∨ Address.isBinaryForm b) ∧ ∃ s, tree = string s := by
  rw [unpackBytes.unpackUntagged] at h
  split at h
  case isTrue hascii =>
    cases h
    exact ⟨Or.inl hascii, _, rfl⟩
  case isFalse =>
    split at h
    case h_1 a haddress =>
      cases h
      exact ⟨Or.inr (by rw [Address.isBinaryForm, haddress]; rfl), _, rfl⟩
    case h_2 => cases h

/-- Bytes that can be unpacked are a tree behind the tag byte, or a text. -/
lemma unpackBytes_eq_ok {b : Bytes} (h : unpackBytes limit b = .ok tree) :
    (∃ c, c ≠ [] ∧ b = packedTag :: c ∧ decode limit c = .ok tree) ∨
      (Bytes.isAscii b ∨ Address.isBinaryForm b) ∧ ∃ s, tree = string s := by
  rw [unpackBytes.eq_def] at h
  split at h
  case h_1 tag x rest =>
    split at h
    case isTrue htag => exact Or.inl ⟨x :: rest, List.cons_ne_nil x rest, by rw [htag], h⟩
    case isFalse => exact Or.inr (unpackUntagged_eq_ok h)
  case h_2 => exact Or.inr (unpackUntagged_eq_ok h)

/-- A node that can be unpacked is a byte string that can be. -/
lemma unpack_eq_ok (h : unpack limit n = .ok tree) : ∃ b u, n = literal (.bytes b) u ∧
    ((∃ c e, c ≠ [] ∧ b = packedTag :: c ∧ decode limit c = .ok e ∧ tree = e.markUnpacked) ∨
      ∃ s, (Bytes.isAscii b ∨ Address.isBinaryForm b) ∧ tree = literal (.string s) true) := by
  cases hb : n.bytes? with
  | none => simp [unpack, hb] at h
  | some b =>
    rcases n with ⟨_ | _ | b, u⟩ | _ | _ <;> cases hb
    obtain ⟨e, he, rfl⟩ := Except.map_eq_ok_iff.1 h
    refine ⟨b, u, rfl, ?_⟩
    rcases unpackBytes_eq_ok he with ⟨c, hc, hb, hread⟩ | ⟨hform, s, rfl⟩
    · exact Or.inl ⟨c, e, hc, hb, hread, rfl⟩
    · exact Or.inr ⟨s, hform, rfl⟩

lemma height_le_of_unpack (h : unpack limit n = .ok tree) : tree.height ≤ limit := by
  obtain ⟨b, u, rfl, ⟨c, e, -, -, hread, rfl⟩ | ⟨s, -, rfl⟩⟩ := unpack_eq_ok h
  · rw [height_markUnpacked]
    exact Nat.le_of_lt_succ (decode_eq_ok hread).2.height_lt
  · exact Nat.zero_le limit

lemma isUnpacked_of_unpack (h : unpack limit n = .ok tree) : tree.isUnpacked = true := by
  obtain ⟨b, u, rfl, ⟨c, e, -, -, -, rfl⟩ | ⟨s, -, rfl⟩⟩ := unpack_eq_ok h
  · exact isUnpacked_markUnpacked e
  · rfl

/-- A byte string does not hold itself: what it holds is spelled with fewer bytes. -/
lemma bytes?_ne_of_unpack (h : unpack limit n = .ok tree) : tree.bytes? ≠ n.bytes? := by
  obtain ⟨b, u, rfl, ⟨c, e, -, rfl, hread, rfl⟩ | ⟨s, -, rfl⟩⟩ := unpack_eq_ok h
  · obtain ⟨rfl, -⟩ := decode_eq_ok hread
    intro heq
    rcases e with ⟨_ | _ | b, u⟩ | _ | _ <;> simp [bytes?, markUnpacked] at heq
    have hlength := congrArg List.length heq
    simp [spelling, Bytes.sized, Bytes.length_word] at hlength
    omega
  · simp [bytes?]

/-- Bytes that can be unpacked count as packed unless their tree goes beyond the limit that is set
when no other is given. -/
lemma lt_height_of_not_isOpenable (h : unpack limit n = .ok tree) (hno : ¬ n.isOpenable) :
    defaultLimit < tree.height := by
  obtain ⟨b, u, rfl, ⟨c, e, hc, rfl, hread, rfl⟩ | ⟨s, hform, rfl⟩⟩ := unpack_eq_ok h
  · obtain ⟨rfl, he⟩ := decode_eq_ok hread
    rw [height_markUnpacked]
    by_contra hle
    have htree := (isTaggedTree_tagged_spelling he.spellable).2 (Nat.le_of_not_lt hle)
    exact hno (by simp [isOpenable, bytes?, htree])
  · refine absurd ?_ hno
    rcases hform with hform | hform <;> simp [isOpenable, bytes?, hform]

lemma opened_of_unpack (hopen : n.isOpenable) (h : unpack limit n = .ok tree) :
    opened limit n = tree := by
  rw [opened, if_pos hopen, h]

/-- A node is opened or left as it is. -/
lemma opened_cases (limit : Nat) (n : Expr) :
    (opened limit n = n ∧ (n.isOpenable → ∃ err, unpack limit n = .error err)) ∨
      (n.isOpenable ∧ unpack limit n = .ok (opened limit n)) := by
  by_cases hopen : n.isOpenable
  · cases h : unpack limit n with
    | ok tree => exact Or.inr ⟨hopen, by rw [opened_of_unpack hopen h]⟩
    | error err => exact Or.inl ⟨by rw [opened, if_pos hopen, h], fun _ => ⟨err, rfl⟩⟩
  · exact Or.inl ⟨by rw [opened, if_neg hopen], fun h => absurd h hopen⟩

lemma opened_eq_self_iff :
    opened limit n = n ↔ (n.isOpenable → ∃ err, unpack limit n = .error err) := by
  rcases opened_cases limit n with ⟨hsame, herror⟩ | ⟨hopen, hok⟩
  · exact iff_of_true hsame herror
  · refine iff_of_false (fun hsame => ?_) fun herror => ?_
    · exact bytes?_ne_of_unpack hok (by rw [hsame])
    · obtain ⟨err, herr⟩ := herror hopen
      rw [hok] at herr
      cases herr

lemma opened_of_bytes?_eq_none (h : n.bytes? = none) : opened limit n = n := by
  refine opened_eq_self_iff.2 fun hopen => ?_
  simp [isOpenable, h] at hopen

lemma height_opened_le (limit : Nat) (n : Expr) :
    (opened limit n).height ≤ max n.height limit := by
  rcases opened_cases limit n with ⟨hsame, -⟩ | ⟨-, hok⟩
  · rw [hsame]
    exact Nat.le_max_left n.height limit
  · exact (height_le_of_unpack hok).trans (Nat.le_max_right n.height limit)

/-- Where no depth is left, only a leaf can come to light, so the parts are those that were there.
-/
lemma mem_args_of_mem_args_opened_zero {a : Expr} (ha : a ∈ (opened 0 n).args) : a ∈ n.args := by
  rcases opened_cases 0 n with ⟨hsame, -⟩ | ⟨-, hok⟩
  · rwa [hsame] at ha
  · exact absurd (height_le_iff.1 (height_le_of_unpack hok) a ha) (Nat.not_lt_zero a.height)

/-! ### The walk -/

lemma openFlatAll_eq_map (es : List Expr) : openFlatAll es = es.map openFlat := by
  induction es with
  | nil => rfl
  | cons e es ih => rw [openFlatAll, ih, List.map_cons]

lemma openFlat_eq (e : Expr) :
    openFlat e = (opened 0 e).withArgs ((opened 0 e).args.map openFlat) := by
  cases e with
  | literal l u =>
    have hargs : (opened 0 (literal l u)).args = [] :=
      List.eq_nil_iff_forall_not_mem.2 fun a ha =>
        List.not_mem_nil (mem_args_of_mem_args_opened_zero ha)
    rw [openFlat, hargs, List.map_nil, ← hargs, withArgs_args]
  | seq items u =>
    rw [openFlat, openFlatAll_eq_map, opened_of_bytes?_eq_none rfl]
    rfl
  | app p args annots w u =>
    rw [openFlat, openFlatAll_eq_map, opened_of_bytes?_eq_none rfl]
    rfl

/-- The step of the walk: the node is opened, and the walk goes on in the parts of what is there
now, with one level less. -/
lemma openWithin_eq (budget : Nat) (e : Expr) :
    openWithin budget e =
      (opened budget e).withArgs ((opened budget e).args.map (openWithin (budget - 1))) := by
  have hzero : openWithin 0 = openFlat := by
    funext e
    rw [openWithin]
  cases budget with
  | zero => rw [hzero, openFlat_eq]
  | succ budget => rw [openWithin, Nat.add_sub_cancel]

lemma args_openWithin (budget : Nat) (e : Expr) :
    (openWithin budget e).args = (opened budget e).args.map (openWithin (budget - 1)) := by
  rw [openWithin_eq, args_withArgs_map]

mutual

/-- The walk on a node `depth` levels below the root of a tree, as far as it takes: the node is
opened with what the limit leaves at this depth, and then the parts of what is there now are walked,
one level further down. -/
inductive Opens (limit : Nat) : Nat → Expr → Expr → Prop
  | node {depth : Nat} {e : Expr} {parts : List Expr} :
      OpensAll limit (depth + 1) (opened (limit - depth) e).args parts →
        Opens limit depth e ((opened (limit - depth) e).withArgs parts)

/-- The walk on the parts of a node, one after the other. -/
inductive OpensAll (limit : Nat) : Nat → List Expr → List Expr → Prop
  | nil {depth : Nat} : OpensAll limit depth [] []
  | cons {depth : Nat} {e tree : Expr} {es trees : List Expr} :
      Opens limit depth e tree → OpensAll limit depth es trees →
        OpensAll limit depth (e :: es) (tree :: trees)

end

lemma opensAll_map {depth : Nat} {f : Expr → Expr} {es : List Expr}
    (h : ∀ e ∈ es, Opens limit depth e (f e)) : OpensAll limit depth es (es.map f) := by
  induction es with
  | nil => exact .nil
  | cons e es ih =>
    exact .cons (h e List.mem_cons_self) (ih fun a ha => h a (List.mem_cons_of_mem e ha))

lemma opens_of_args {depth : Nat}
    (h : ∀ a ∈ (opened (limit - depth) e).args,
      Opens limit (depth + 1) a (openWithin (limit - (depth + 1)) a)) :
    Opens limit depth e (openWithin (limit - depth) e) := by
  rw [openWithin_eq, Nat.sub_sub]
  exact .node (opensAll_map h)

/-- Below the limit the parts are those of the tree as it was, so the walk ends with the tree. -/
lemma opens_of_le (depth : Nat) (hle : limit ≤ depth) (e : Expr) :
    Opens limit depth e (openWithin (limit - depth) e) := by
  induction e using inductArgs generalizing depth with
  | node e ih =>
    refine opens_of_args fun a ha => ih a ?_ (depth + 1) (Nat.le_succ_of_le hle)
    rw [Nat.sub_eq_zero_of_le hle] at ha
    exact mem_args_of_mem_args_opened_zero ha

/-- Within the limit opened trees may be of any shape, but each level takes one off the budget. -/
lemma opens_openWithin (limit depth : Nat) (e : Expr) :
    Opens limit depth e (openWithin (limit - depth) e) := by
  induction hbudget : limit - depth generalizing depth e with
  | zero =>
    rw [← hbudget]
    exact opens_of_le depth (Nat.le_of_sub_eq_zero hbudget) e
  | succ budget ih =>
    rw [← hbudget]
    refine opens_of_args fun a _ => ?_
    have hpart : limit - (depth + 1) = budget := by omega
    rw [hpart]
    exact ih (depth + 1) a hpart

/-- The walk ends on every node, whatever comes to light under way, and `openWithin` is where it
ends. -/
theorem opens_iff_eq_openWithin {depth : Nat} :
    Opens limit depth e tree ↔ tree = openWithin (limit - depth) e := by
  constructor
  · intro h
    induction h using Opens.rec
      (motive_2 := fun depth es trees _ => trees = es.map (openWithin (limit - depth))) with
    | node _ ih => rw [openWithin_eq, ih, Nat.sub_sub]
    | nil => rfl
    | cons _ _ ih ihs => rw [ih, ihs, List.map_cons]
  · rintro rfl
    exact opens_openWithin limit depth e

/-! ### The height of what is opened -/

/-- The budget counts the levels of all layers: whatever comes to light `depth` levels below the
root leaves the tree within the limit, unless the tree was higher before. -/
lemma Opens.height_le {depth : Nat} (h : Opens limit depth e tree) :
    tree.height ≤ max e.height (limit - depth) := by
  induction h using Opens.rec
    (motive_2 := fun depth es trees _ =>
      ∀ t ∈ trees, ∃ e ∈ es, t.height ≤ max e.height (limit - depth)) with
  | @node depth e parts h ih =>
    refine height_le_iff.2 fun t ht => ?_
    obtain ⟨a, ha, hle⟩ := ih t (args_withArgs_subset _ parts ht)
    -- the part has one level less to go than the node, and so has what is walked below it
    have hbelow := height_le_iff.1 (height_opened_le (limit - depth) e) a ha
    omega
  | @nil depth t ht => cases ht
  | @cons depth e tree es trees _ _ ih ihs t ht =>
    rcases ht with _ | ⟨_, ht⟩
    · exact ⟨e, List.mem_cons_self, ih⟩
    · obtain ⟨a, ha, hle⟩ := ihs t ht
      exact ⟨a, List.mem_cons_of_mem e ha, hle⟩

/-- Opening a tree ends, although opened trees are searched again: the walk from the root has one
end, which is what `openWithin` gives.  A tree that grows this way stays within the limit, however
many layers of packed bytes its leaves hide. -/
theorem openWithin_ends (limit : Nat) (e : Expr) :
    (∀ tree, Opens limit 0 e tree ↔ tree = openWithin limit e) ∧
      (openWithin limit e).height ≤ max e.height limit ∧
      (e.height ≤ limit → (openWithin limit e).height ≤ limit) := by
  have hheight := (opens_openWithin limit 0 e).height_le
  rw [Nat.sub_zero] at hheight
  refine ⟨fun tree => opens_iff_eq_openWithin, hheight, fun hle => ?_⟩
  rwa [Nat.max_eq_right hle] at hheight

/-- A byte string that holds an option of a byte string that holds an option: within the limit one
the outer layer is opened and the inner one stays. -/
theorem openWithin_ends_two_layers :
    let e := bytes [5, 5, 9, 10, 0, 0, 0, 5, 5, 5, 9, 3, 11]
    let r := app (.data .some) [bytes [5, 5, 9, 3, 11]] [] false true
    e.height ≤ 1 ∧ Opens 1 0 e r ∧ r.height ≤ 1 := by
  intro e r
  obtain ⟨hends, -, hwithin⟩ := openWithin_ends 1 e
  have hheight : e.height ≤ 1 := Nat.zero_le 1
  have hr : r = openWithin 1 e := by rfl
  refine ⟨hheight, (hends r).2 hr, ?_⟩
  rw [hr]
  exact hwithin hheight

/-! ### What stays packed -/

@[simp] lemma bytes?_withArgs (e : Expr) (parts : List Expr) :
    (e.withArgs parts).bytes? = e.bytes? := by
  cases e <;> rfl

/-- A byte string that the walk leaves behind is what its node was opened to. -/
lemma openWithin_eq_opened {budget : Nat} {b : Bytes} (h : (openWithin budget e).bytes? = some b) :
    openWithin budget e = opened budget e := by
  rw [openWithin_eq, bytes?_withArgs] at h
  rw [openWithin_eq]
  cases hopened : opened budget e with
  | literal l u => rfl
  | seq items u => simp [hopened, bytes?] at h
  | app p args annots w u => simp [hopened, bytes?] at h

/-- What the walk leaves `depth` levels below the root is what it left of some node there. -/
lemma exists_openWithin_of_mem_nodesAt {budget depth : Nat}
    (hn : n ∈ (openWithin budget e).nodesAt depth) :
    ∃ m, n = openWithin (budget - depth) m := by
  induction depth generalizing budget e with
  | zero => exact ⟨e, List.mem_singleton.1 hn⟩
  | succ depth ih =>
    obtain ⟨a, ha, hna⟩ := List.mem_flatMap.1 hn
    rw [args_openWithin] at ha
    obtain ⟨a, -, rfl⟩ := List.mem_map.1 ha
    obtain ⟨m, rfl⟩ := ih hna
    exact ⟨m, by rw [Nat.sub_sub, Nat.add_comm 1]⟩

lemma openWithin_eq_self_iff_args {budget : Nat} :
    openWithin budget e = e ↔
      opened budget e = e ∧ ∀ a ∈ e.args, openWithin (budget - 1) a = a := by
  constructor
  · intro h
    have hroot : opened budget e = e := by
      rcases opened_cases budget e with ⟨hsame, -⟩ | ⟨-, hok⟩
      · exact hsame
      · -- an opened byte string would hold itself
        refine absurd ?_ (bytes?_ne_of_unpack hok)
        conv_rhs => rw [← h, openWithin_eq, bytes?_withArgs]
    have hargs : e.args.map (openWithin (budget - 1)) = e.args.map id := by
      conv_rhs => rw [List.map_id, ← h, args_openWithin, hroot]
    exact ⟨hroot, List.map_inj_left.1 hargs⟩
  · rintro ⟨hroot, hargs⟩
    have hmap : e.args.map (openWithin (budget - 1)) = e.args.map id :=
      List.map_congr_left hargs
    rw [openWithin_eq, hroot, hmap, List.map_id, withArgs_args]

/-- The walk changes nothing in a tree when no node of it can be opened with the budget that is left
at its depth, and only then. -/
lemma openWithin_eq_self_iff {budget : Nat} :
    openWithin budget e = e ↔
      ∀ depth, ∀ n ∈ e.nodesAt depth, opened (budget - depth) n = n := by
  induction e using inductArgs generalizing budget with
  | node e ih =>
    rw [openWithin_eq_self_iff_args, forall_mem_nodesAt, Nat.sub_zero]
    refine and_congr_right fun _ => forall₂_congr fun a ha => ?_
    rw [ih a ha]
    simp only [Nat.sub_sub, Nat.add_comm 1]

/-- A byte string that is left at a depth within the limit cannot be unpacked with the rest of the
limit, but for two: one that came to light itself, straight out of packed bytes, is not looked at
again, and one whose tree goes beyond the limit that is set when no other is given does not count
as packed.  Opening a tree a second time changes nothing when no byte string is left that counts as
packed and can be unpacked, and only then. -/
theorem unpack_leaf_of_openWithin (limit : Nat) (e : Expr) :
    (∀ depth ≤ limit, ∀ b u, literal (.bytes b) u ∈ (openWithin limit e).nodesAt depth →
      (∃ err, unpack (limit - depth) (literal (.bytes b) u) = .error err) ∨
      (u = true ∧ ∃ b₀ u₀,
        unpack (limit - depth) (literal (.bytes b₀) u₀) = .ok (literal (.bytes b) u)) ∨
      (∃ tree, unpack (limit - depth) (literal (.bytes b) u) = .ok tree ∧ 1024 < tree.height)) ∧
    (openWithin limit (openWithin limit e) = openWithin limit e ↔
      ∀ depth, ∀ n ∈ (openWithin limit e).nodesAt depth, n.isOpenable →
        ∃ err, unpack (limit - depth) n = .error err) := by
  constructor
  · intro depth _ b u hleaf
    obtain ⟨m, hm⟩ := exists_openWithin_of_mem_nodesAt hleaf
    rw [openWithin_eq_opened (by rw [← hm]; rfl)] at hm
    rcases opened_cases (limit - depth) m with ⟨hsame, herror⟩ | ⟨-, hok⟩
    · -- the leaf was there before, and was left because it fails or does not count as packed
      rw [hsame] at hm
      subst hm
      by_cases hopen : (literal (.bytes b) u).isOpenable
      · exact Or.inl (herror hopen)
      · cases hunpack : unpack (limit - depth) (literal (.bytes b) u) with
        | error err => exact Or.inl ⟨err, rfl⟩
        | ok tree => exact Or.inr (Or.inr ⟨tree, rfl, lt_height_of_not_isOpenable hunpack hopen⟩)
    · -- the leaf came to light, and the walk went on in its parts, of which there are none
      rw [← hm] at hok
      obtain ⟨b₀, u₀, rfl, -⟩ := unpack_eq_ok hok
      exact Or.inr (Or.inl ⟨isUnpacked_of_unpack hok, b₀, u₀, hok⟩)
  · rw [openWithin_eq_self_iff]
    simp only [opened_eq_self_iff]

/-- A byte string that holds an option of a byte string that holds an option, opened within the
limit one: the byte string that is left would go to the depth two. -/
theorem unpack_leaf_of_openWithin_two_layers :
    let r := app (.data .some) [bytes [5, 5, 9, 3, 11]] [] false true
    openWithin 1 (bytes [5, 5, 9, 10, 0, 0, 0, 5, 5, 5, 9, 3, 11]) = r ∧
      bytes [5, 5, 9, 3, 11] ∈ r.nodesAt 1 ∧
      (∃ err, unpack 0 (bytes [5, 5, 9, 3, 11]) = .error err) ∧ openWithin 1 r = r := by
  intro r
  obtain ⟨hleaf, hagain⟩ :=
    unpack_leaf_of_openWithin 1 (bytes [5, 5, 9, 10, 0, 0, 0, 5, 5, 5, 9, 3, 11])
  have hr : openWithin 1 (bytes [5, 5, 9, 10, 0, 0, 0, 5, 5, 5, 9, 3, 11]) = r := by rfl
  rw [hr] at hleaf hagain
  have hmem : bytes [5, 5, 9, 3, 11] ∈ r.nodesAt 1 := List.mem_singleton_self _
  have herror : ∃ err, unpack 0 (bytes [5, 5, 9, 3, 11]) = .error err := by
    rcases hleaf 1 (Nat.le_refl 1) _ false hmem with herror | ⟨hmark, -⟩ | ⟨tree, hok, hlt⟩
    · exact herror
    · cases hmark
    · exact absurd (height_le_of_unpack hok) (by omega)
  refine ⟨hr, hmem, herror, hagain.2 ?_⟩
  rintro (_ | _ | depth) n hn hopen
  · obtain rfl := List.mem_singleton.1 hn
    cases hopen
  · obtain rfl := List.mem_singleton.1 hn
    exact herror
  · cases hn

/-- A byte string that holds a byte string that holds the unit: the outer layer is opened, the inner
one is left although it can be unpacked, and opening once more opens it. -/
theorem openWithin_ne_of_stacked :
    let e := bytes [5, 10, 0, 0, 0, 3, 5, 3, 11]
    ¬ (∀ depth ≤ 1024, ∀ b u, literal (.bytes b) u ∈ (openWithin 1024 e).nodesAt depth →
        ∃ err, unpack (1024 - depth) (literal (.bytes b) u) = .error err) ∧
      e.height ≤ 1024 ∧ openWithin 1024 (openWithin 1024 e) ≠ openWithin 1024 e := by
  intro e
  have hr : openWithin 1024 e = literal (.bytes [5, 3, 11]) true := by rfl
  have hunpack : unpack 1024 (literal (.bytes [5, 3, 11]) true) =
      .ok (app (.data .unit) [] [] false true) := by rfl
  rw [hr]
  refine ⟨fun hall => ?_, Nat.zero_le 1024, fun hsame => ?_⟩
  · obtain ⟨err, herror⟩ := hall 0 (Nat.zero_le 1024) [5, 3, 11] true (List.mem_singleton_self _)
    rw [hunpack] at herror
    cases herror
  · have hagain : openWithin 1024 (literal (.bytes [5, 3, 11]) true) =
        app (.data .unit) [] [] false true := by rfl
    rw [hagain] at hsame
    cases hsame

end Michelson.Expr
