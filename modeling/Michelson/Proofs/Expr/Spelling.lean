/-
# The spelling of a tree

Writing a tree can fail in two ways: an annotation that is empty or has a space, and a payload that
is too long for its length.  The *spelling* is what writing produces when neither is looked at; it
is a total function, and about it the laws of the binary form are stated.  A tree is *spellable*
when nothing stands in the way of writing it.

The main statements are `encode_eq_ok_iff` and `encode_of_not_isWellAnnotated`: writing gives the
spelling of the spellable trees and of no others, and with short payloads a tree that cannot be
written has one of its annotations reported.
-/
import Michelson.Proofs.Binary.Annotations
import Michelson.Proofs.Binary.Zarith
import Michelson.Proofs.Except
import Michelson.Proofs.Expr.Traversal

namespace Michelson.Expr

mutual

/-- The bytes of a tree, whatever its annotations and the lengths of its payloads are. -/
def spelling : Expr → Bytes
  | literal (.int n) _ => 0x00 :: Zarith.encode n
  | literal (.string s) _ => 0x01 :: (Utf8.encode s).sized
  | literal (.bytes b) _ => 0x0a :: b.sized
  | seq items _ => 0x02 :: (spellingAll items).sized
  | app p args annots wide _ =>
    if wide || 2 < args.length then
      0x09 :: p.code :: ((spellingAll args).sized ++ (annotText annots).sized)
    else
      (Kind.ofArity args.length !annots.isEmpty).tag :: p.code ::
        (spellingAll args ++ if annots.isEmpty then [] else (annotText annots).sized)

/-- The spellings of trees one after the other. -/
def spellingAll : List Expr → Bytes
  | [] => []
  | e :: rest => spelling e ++ spellingAll rest

end

/-- The payloads that stand behind a length in the spelling of the root. -/
def payloads : Expr → List Bytes
  | literal (.int _) _ => []
  | literal (.string s) _ => [Utf8.encode s]
  | literal (.bytes b) _ => [b]
  | seq items _ => [spellingAll items]
  | app _ args annots wide _ =>
    if wide || 2 < args.length then [spellingAll args, annotText annots]
    else if annots.isEmpty then [] else [annotText annots]

/-- No annotation of the tree is empty or has a space. -/
def IsWellAnnotated (e : Expr) : Prop := ∀ n ∈ e.nodes, AreAnnots n.annots

/-- All lengths in the spelling of the tree fit their words. -/
def HasShortPayloads (e : Expr) : Prop := ∀ n ∈ e.nodes, ∀ b ∈ n.payloads, b.IsShort

/-- Nothing stands in the way of writing the tree. -/
structure IsSpellable (e : Expr) : Prop where
  annots : e.IsWellAnnotated
  payloads : e.HasShortPayloads

variable {e : Expr}

lemma isWellAnnotated_iff :
    e.IsWellAnnotated ↔ AreAnnots e.annots ∧ ∀ a ∈ e.args, a.IsWellAnnotated :=
  forall_mem_nodes

lemma hasShortPayloads_iff :
    e.HasShortPayloads ↔ (∀ b ∈ e.payloads, b.IsShort) ∧ ∀ a ∈ e.args, a.HasShortPayloads :=
  forall_mem_nodes

lemma IsSpellable.arg (h : e.IsSpellable) {a : Expr} (ha : a ∈ e.args) : a.IsSpellable :=
  ⟨(isWellAnnotated_iff.1 h.annots).2 a ha, (hasShortPayloads_iff.1 h.payloads).2 a ha⟩

lemma isSpellable_of_args (hannots : AreAnnots e.annots) (hpayloads : ∀ b ∈ e.payloads, b.IsShort)
    (hargs : ∀ a ∈ e.args, a.IsSpellable) : e.IsSpellable :=
  ⟨isWellAnnotated_iff.2 ⟨hannots, fun a ha => (hargs a ha).annots⟩,
    hasShortPayloads_iff.2 ⟨hpayloads, fun a ha => (hargs a ha).payloads⟩⟩

lemma spellingAll_eq_flatMap (es : List Expr) : spellingAll es = es.flatMap spelling := by
  induction es with
  | nil => rfl
  | cons e es ih => rw [spellingAll, ih, List.flatMap_cons]

lemma spelling_ne_nil (e : Expr) : e.spelling ≠ [] := by
  cases e with
  | literal l u => cases l <;> simp [spelling]
  | seq items u => simp [spelling]
  | app p args annots w u =>
    rw [spelling]
    split <;> exact List.cons_ne_nil _ _

/-- The tag of a narrow form follows from the number of arguments and the annotations. -/
lemma kind_app_of_narrow {p : Primitive} {args : List Expr} {annots : List String} {w u : Bool}
    (h : ¬ (w || 2 < args.length)) :
    (app p args annots w u).kind = Kind.ofArity args.length !annots.isEmpty := by
  have hw : w = false := by cases w <;> simp_all
  rw [kind, hw, if_neg Bool.false_ne_true]

/-- The wide form is that of a node which asks for it or has more than two arguments. -/
lemma kind_app_of_wide {p : Primitive} {args : List Expr} {annots : List String} {w u : Bool}
    (h : w || 2 < args.length) :
    (app p args annots w u).kind = if annots.isEmpty then .variadic else .variadicAnnotated := by
  cases w with
  | true => rw [kind, if_pos rfl]
  | false =>
    match args, h with
    | _ :: _ :: _ :: _, _ => rw [kind, if_neg Bool.false_ne_true]; cases annots <;> rfl

/-- The first byte of a spelling is the tag of the form of the root. -/
lemma spelling_eq_cons (e : Expr) : ∃ tail, e.spelling = e.kind.tag :: tail := by
  cases e with
  | literal l u => cases l <;> exact ⟨_, rfl⟩
  | seq items u => exact ⟨_, rfl⟩
  | app p args annots w u =>
    rw [spelling]
    by_cases hwide : w || 2 < args.length
    · have htag : (app p args annots w u).kind.tag = 0x09 := by
        rw [kind_app_of_wide hwide]
        split <;> rfl
      rw [if_pos hwide, htag]
      exact ⟨_, rfl⟩
    · rw [if_neg hwide, kind_app_of_narrow hwide]
      exact ⟨_, rfl⟩

/-- The tags of applications come behind those of the other forms but the byte string, and with an
argument behind those without. -/
lemma le_tag_app (p : Primitive) (args : List Expr) (annots : List String) (w u : Bool) :
    3 ≤ (app p args annots w u).kind.tag ∧
      (args ≠ [] → 5 ≤ (app p args annots w u).kind.tag) := by
  have harity : ∀ count annotated, 3 ≤ (Kind.ofArity count annotated).tag ∧
      (count ≠ 0 → 5 ≤ (Kind.ofArity count annotated).tag) := by
    intro count annotated
    match count, annotated with
    | 0, false | 0, true => exact ⟨by decide, fun h => absurd rfl h⟩
    | 1, false | 1, true | 2, false | 2, true => exact ⟨by decide, fun _ => by decide⟩
    | _ + 3, false | _ + 3, true =>
      exact ⟨(by decide : 3 ≤ (0x09 : UInt8)), fun _ => (by decide : 5 ≤ (0x09 : UInt8))⟩
  rw [kind]
  cases w with
  | true =>
    rw [if_pos rfl]
    split <;> exact ⟨by decide, fun _ => by decide⟩
  | false =>
    rw [if_neg Bool.false_ne_true]
    refine ⟨(harity _ _).1, fun hne => (harity _ _).2 ?_⟩
    exact mt List.length_eq_zero_iff.1 hne

/-! ### Writing -/

lemma encodeAll_of_forall {es : List Expr} (h : ∀ e ∈ es, encode e = .ok e.spelling) :
    encodeAll es = .ok (spellingAll es) := by
  induction es with
  | nil => rfl
  | cons e es ih =>
    have htail := ih fun a ha => h a (List.mem_cons_of_mem e ha)
    rw [encodeAll, h e List.mem_cons_self, htail]
    rfl

/-- An annotation of the tree that cannot be written. -/
def HasBadAnnot (e : Expr) (annot : String) : Prop :=
  ∃ n ∈ e.nodes, annot ∈ n.annots ∧ ¬ isAnnot annot

lemma HasBadAnnot.of_arg {a : Expr} {annot : String} (h : a.HasBadAnnot annot) (ha : a ∈ e.args) :
    e.HasBadAnnot annot := by
  obtain ⟨n, hn, hannot⟩ := h
  exact ⟨n, mem_nodes_of_mem_args ha hn, hannot⟩

/-- Writing an application whose arguments can be written. -/
lemma encode_app {p : Primitive} {args : List Expr} {annots : List String} {w u : Bool}
    (hargs : encodeAll args = .ok (spellingAll args))
    (hshort : ∀ b ∈ (app p args annots w u).payloads, b.IsShort) :
    (AreAnnots annots → encode (app p args annots w u) = .ok (app p args annots w u).spelling) ∧
      (¬ AreAnnots annots → ∃ a ∈ annots, ¬ isAnnot a ∧
        encode (app p args annots w u) = .error (.invalidAnnot (.malformed a))) := by
  rw [encode, spelling, hargs, Except.ok_bind]
  by_cases hwide : w || 2 < args.length
  · rw [payloads, if_pos hwide] at hshort
    have hbody := encodeBlock_of_isShort (hshort _ List.mem_cons_self)
    have htext := hshort (annotText annots) (by simp)
    simp only [if_pos hwide, hbody, Except.ok_bind]
    refine ⟨fun h => by rw [encodeAnnots_of_areAnnots h htext]; rfl, fun h => ?_⟩
    obtain ⟨a, ha, hbad, herror⟩ := encodeAnnots_of_not_areAnnots h
    exact ⟨a, ha, hbad, by rw [herror, Except.error_bind]⟩
  · rw [payloads, if_neg hwide] at hshort
    simp only [if_neg hwide, kind_app_of_narrow hwide]
    by_cases hempty : annots.isEmpty
    · simp only [if_pos hempty, Except.ok_bind]
      refine ⟨fun _ => rfl, fun h => ?_⟩
      rw [List.isEmpty_iff.1 hempty] at h
      exact absurd (fun a ha => absurd ha List.not_mem_nil) h
    · rw [if_neg hempty] at hshort
      have htext := hshort _ List.mem_cons_self
      simp only [if_neg hempty]
      refine ⟨fun h => by rw [encodeAnnots_of_areAnnots h htext]; rfl, fun h => ?_⟩
      obtain ⟨a, ha, hbad, herror⟩ := encodeAnnots_of_not_areAnnots h
      exact ⟨a, ha, hbad, by rw [herror, Except.error_bind]⟩

/-- Writing a spellable tree gives its spelling. -/
lemma encode_of_isSpellable (h : e.IsSpellable) : encode e = .ok e.spelling := by
  have hshort := (hasShortPayloads_iff.1 h.payloads).1
  induction e using Expr.induct with
  | literal l u =>
    cases l with
    | int n => rfl
    | string s => rw [encode, encodeBlock_of_isShort (hshort _ List.mem_cons_self)]; rfl
    | bytes b => rw [encode, encodeBlock_of_isShort (hshort _ List.mem_cons_self)]; rfl
  | seq items u ih =>
    have hall := encodeAll_of_forall fun a ha =>
      ih a ha (h.arg ha) (hasShortPayloads_iff.1 (h.arg ha).payloads).1
    rw [encode, hall, Except.ok_bind, encodeBlock_of_isShort (hshort _ List.mem_cons_self)]
    rfl
  | app p args annots w u ih =>
    have hall := encodeAll_of_forall fun a ha =>
      ih a ha (h.arg ha) (hasShortPayloads_iff.1 (h.arg ha).payloads).1
    exact (encode_app hall hshort).1 (isWellAnnotated_iff.1 h.annots).1

/-- The first tree with an annotation that cannot be written decides. -/
lemma encodeAll_of_exists {es : List Expr} (hshort : ∀ e ∈ es, e.HasShortPayloads)
    (herror : ∀ e ∈ es, ¬ e.IsWellAnnotated →
      ∃ a, e.HasBadAnnot a ∧ encode e = .error (.invalidAnnot (.malformed a)))
    (hbad : ∃ e ∈ es, ¬ e.IsWellAnnotated) :
    ∃ e ∈ es, ∃ a, e.HasBadAnnot a ∧ encodeAll es = .error (.invalidAnnot (.malformed a)) := by
  induction es with
  | nil => simp at hbad
  | cons e es ih =>
    by_cases he : e.IsWellAnnotated
    · have hok := encode_of_isSpellable ⟨he, hshort e List.mem_cons_self⟩
      obtain ⟨e', he', a, ha, htail⟩ := ih (fun e' he' => hshort e' (List.mem_cons_of_mem e he'))
        (fun e' he' => herror e' (List.mem_cons_of_mem e he'))
        ((List.or_exists_of_exists_mem_cons hbad).resolve_left (not_not_intro he))
      refine ⟨e', List.mem_cons_of_mem e he', a, ha, ?_⟩
      rw [encodeAll, hok, Except.ok_bind, htail, Except.error_bind]
    · obtain ⟨a, ha, hhead⟩ := herror e List.mem_cons_self he
      exact ⟨e, List.mem_cons_self, a, ha, by rw [encodeAll, hhead, Except.error_bind]⟩

/-- With short payloads, writing a tree that is not well annotated reports one of its annotations.
-/
lemma encode_of_not_isWellAnnotated (hshort : e.HasShortPayloads) (h : ¬ e.IsWellAnnotated) :
    ∃ a, e.HasBadAnnot a ∧ encode e = .error (.invalidAnnot (.malformed a)) := by
  induction e using Expr.induct with
  | literal l u =>
    exact absurd (isWellAnnotated_iff.2 ⟨by simp [annots, AreAnnots], by simp [args]⟩) h
  | seq items u ih =>
    have hitems : ∀ e ∈ items, e.HasShortPayloads := (hasShortPayloads_iff.1 hshort).2
    have hbad : ∃ e ∈ items, ¬ e.IsWellAnnotated := by
      by_contra hnone
      push Not at hnone
      exact h (isWellAnnotated_iff.2 ⟨by simp [annots, AreAnnots], hnone⟩)
    obtain ⟨e, he, a, ha, hall⟩ :=
      encodeAll_of_exists hitems (fun e he => ih e he (hitems e he)) hbad
    exact ⟨a, ha.of_arg he, by rw [encode, hall, Except.error_bind]⟩
  | app p args annots w u ih =>
    have hargs : ∀ e ∈ args, e.HasShortPayloads := (hasShortPayloads_iff.1 hshort).2
    by_cases hbad : ∃ e ∈ args, ¬ e.IsWellAnnotated
    · obtain ⟨e, he, a, ha, hall⟩ :=
        encodeAll_of_exists hargs (fun e he => ih e he (hargs e he)) hbad
      exact ⟨a, ha.of_arg he, by rw [encode, hall, Except.error_bind]⟩
    · push Not at hbad
      have hall := encodeAll_of_forall fun e he => encode_of_isSpellable ⟨hbad e he, hargs e he⟩
      have hroot : ¬ AreAnnots annots := fun hroot => h (isWellAnnotated_iff.2 ⟨hroot, hbad⟩)
      obtain ⟨a, ha, hnot, herror⟩ := (encode_app hall (hasShortPayloads_iff.1 hshort).1).2 hroot
      exact ⟨a, ⟨_, mem_nodes_self _, ha, hnot⟩, herror⟩

/-! ### What was written -/

lemma isSpellable_of_encodeAll {es : List Expr}
    (h : ∀ e ∈ es, ∀ b, encode e = .ok b → e.IsSpellable)
    {b : Bytes} (hall : encodeAll es = .ok b) : ∀ e ∈ es, e.IsSpellable := by
  induction es generalizing b with
  | nil => exact fun e he => absurd he List.not_mem_nil
  | cons e es ih =>
    obtain ⟨head, hhead, htail⟩ := Except.bind_eq_ok_iff.1 hall
    obtain ⟨tail, htail, -⟩ := Except.bind_eq_ok_iff.1 htail
    rintro e' (_ | ⟨_, he'⟩)
    · exact h e List.mem_cons_self head hhead
    · exact ih (fun a ha => h a (List.mem_cons_of_mem e ha)) htail e' he'

lemma isSpellable_of_encode {b : Bytes} (h : encode e = .ok b) : e.IsSpellable := by
  induction e using Expr.induct generalizing b with
  | literal l u =>
    refine isSpellable_of_args (by simp [annots, AreAnnots]) ?_ (by simp [args])
    cases l with
    | int n => simp [payloads]
    | string s =>
      obtain ⟨c, hc, -⟩ := Except.map_eq_ok_iff.1 h
      simpa [payloads] using isShort_of_encodeBlock hc
    | bytes b' =>
      obtain ⟨c, hc, -⟩ := Except.map_eq_ok_iff.1 h
      simpa [payloads] using isShort_of_encodeBlock hc
  | seq items u ih =>
    obtain ⟨parts, hparts, h1⟩ := Except.bind_eq_ok_iff.1 h
    obtain ⟨body, hbody, -⟩ := Except.bind_eq_ok_iff.1 h1
    have hitems := isSpellable_of_encodeAll (fun a ha b hb => ih a ha hb) hparts
    have hall := encodeAll_of_forall fun a ha => encode_of_isSpellable (hitems a ha)
    rw [hall, Except.ok.injEq] at hparts
    subst hparts
    refine isSpellable_of_args (by simp [annots, AreAnnots]) ?_ hitems
    simpa [payloads] using isShort_of_encodeBlock hbody
  | app p args annots w u ih =>
    rw [encode] at h
    obtain ⟨parts, hparts, h1⟩ := Except.bind_eq_ok_iff.1 h
    have hargs := isSpellable_of_encodeAll (fun a ha b hb => ih a ha hb) hparts
    have hall := encodeAll_of_forall fun a ha => encode_of_isSpellable (hargs a ha)
    rw [hall, Except.ok.injEq] at hparts
    subst hparts
    by_cases hwide : w || 2 < args.length
    · rw [if_pos hwide] at h1
      obtain ⟨body, hbody, h2⟩ := Except.bind_eq_ok_iff.1 h1
      obtain ⟨tail, htail, -⟩ := Except.bind_eq_ok_iff.1 h2
      obtain ⟨hannots, htext⟩ := areAnnots_of_encodeAnnots htail
      refine isSpellable_of_args hannots ?_ hargs
      rw [payloads, if_pos hwide]
      simpa using ⟨isShort_of_encodeBlock hbody, htext⟩
    · simp only [if_neg hwide] at h1
      by_cases hempty : annots.isEmpty
      · refine isSpellable_of_args ?_ ?_ hargs
        · rw [Expr.annots, List.isEmpty_iff.1 hempty]
          exact fun a ha => absurd ha List.not_mem_nil
        · rw [payloads, if_neg hwide, if_pos hempty]
          simp
      · rw [if_neg hempty] at h1
        obtain ⟨tail, htail, -⟩ := Except.bind_eq_ok_iff.1 h1
        obtain ⟨hannots, htext⟩ := areAnnots_of_encodeAnnots htail
        refine isSpellable_of_args hannots ?_ hargs
        rw [payloads, if_neg hwide, if_neg hempty]
        simpa using htext

/-- The trees that can be written are the spellable ones, and what is written is their spelling. -/
theorem encode_eq_ok_iff {b : Bytes} : encode e = .ok b ↔ e.IsSpellable ∧ b = e.spelling := by
  constructor
  · intro h
    have hspell := isSpellable_of_encode h
    rw [encode_of_isSpellable hspell, Except.ok.injEq] at h
    exact ⟨hspell, h.symm⟩
  · rintro ⟨hspell, rfl⟩
    exact encode_of_isSpellable hspell

end Michelson.Expr
