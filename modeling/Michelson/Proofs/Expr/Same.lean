/-
# Trees that are the same

Comparing two trees looks at everything that their JSON forms show and at nothing else: two trees
are the same exactly when they have one canonical form (`same_iff_canonical_eq`).  So being the same
is an equivalence, and whatever reading does to a tree, be it from bytes or from JSON, the results
are the same tree.
-/
import Michelson.Proofs.Expr.Json

namespace Michelson.Expr

variable {a b : Expr}

lemma length_canonicalAll (es : List Expr) : (canonicalAll es).length = es.length := by
  rw [canonicalAll_eq_map, List.length_map]

lemma compareAll_iff_canonicalAll_eq {es es' : List Expr}
    (h : ∀ e ∈ es, ∀ e', same e e' ↔ e.canonical = e'.canonical) :
    compareAll true es es' ↔ canonicalAll es = canonicalAll es' := by
  induction es generalizing es' with
  | nil => cases es' <;> simp [compareAll, canonicalAll]
  | cons e es ih =>
    cases es' with
    | nil => simp [compareAll, canonicalAll]
    | cons e' es' =>
      have hhead : compare true e e' ↔ e.canonical = e'.canonical := h e List.mem_cons_self e'
      rw [compareAll, canonicalAll, canonicalAll, Bool.and_eq_true, hhead,
        ih fun c hc => h c (List.mem_cons_of_mem e hc), List.cons.injEq]

/-- Two trees are the same exactly when they have one canonical form. -/
theorem same_iff_canonical_eq : same a b ↔ a.canonical = b.canonical := by
  induction a using Expr.induct generalizing b with
  | literal l u => cases b <;> simp [same, compare, canonical]
  | seq items u ih =>
    cases b with
    | literal l u' => simp [same, compare, canonical]
    | seq items' u' =>
      rw [same, compare, compareAll_iff_canonicalAll_eq fun e he e' => ih e he]
      simp [canonical]
    | app q args' annots' w' u' => simp [same, compare, canonical]
  | app p args annots w u ih =>
    cases b with
    | literal l u' => simp [same, compare, canonical]
    | seq items' u' => simp [same, compare, canonical]
    | app q args' annots' w' u' =>
      have hargs : compareAll true args args' ↔ canonicalAll args = canonicalAll args' :=
        compareAll_iff_canonicalAll_eq fun e he e' => ih e he
      -- the number of arguments, which decides the wide form, can be read off the canonical forms
      have hlength : canonicalAll args = canonicalAll args' → args.length = args'.length := by
        intro heq
        rw [← length_canonicalAll args, heq, length_canonicalAll]
      simp only [same, compare, canonical, hargs, Bool.not_true, Bool.false_or, Bool.and_eq_true,
        beq_iff_eq, app.injEq, and_true]
      constructor
      · rintro ⟨⟨hp, hannots⟩, heq⟩
        exact ⟨hp, heq, hannots, by rw [hlength heq]⟩
      · rintro ⟨hp, heq, hannots, -⟩
        exact ⟨⟨hp, hannots⟩, heq⟩

lemma canonical_canonical (e : Expr) : e.canonical.canonical = e.canonical :=
  same_iff_canonical_eq.1 (same_canonical e)

lemma canonical_normal (e : Expr) : e.normal.canonical = e.canonical :=
  same_iff_canonical_eq.1 (same_normal e)

end Michelson.Expr
