/-
# The search for a new name

A call for a name tries one candidate after the other until one is not in use: the name that is
wanted, if there is one, and then the base with the numbers 0, 1, 2 and so on behind it.  Nothing
bounds this search (`Search`).  It ends all the same: its candidates are different names, so among
one candidate more than there are names in use there is a new one, and the first one of them is the
name that `fresh` and `freshOr` give (`search_name`).

Names that are given out are in use from then on, so no name is given out twice.  The main statement
is `serve_gives_new_name`.
-/
import Michelson.Proofs.Names

namespace Michelson.Names

/-! ### Searching -/

section Searching

variable {used : List String} {candidate : Nat → String} {k : Nat}

/-- A run of the search from the `k`-th candidate on, with the candidates that it tries and the name
that it ends with. -/
inductive Search (used : List String) (candidate : Nat → String) :
    Nat → List String → String → Prop
  | found {k : Nat} (h : candidate k ∉ used) : Search used candidate k [candidate k] (candidate k)
  | taken {k : Nat} {tried : List String} {name : String} (h : candidate k ∈ used)
    (hrest : Search used candidate (k + 1) tried name) :
    Search used candidate k (candidate k :: tried) name

/-- The search has one run at most. -/
lemma Search.unique {tried tried' : List String} {name name' : String}
    (h : Search used candidate k tried name) (h' : Search used candidate k tried' name') :
    tried' = tried ∧ name' = name := by
  induction h generalizing tried' name' with
  | found hnew =>
    cases h' with
    | found => exact ⟨rfl, rfl⟩
    | taken hused => exact absurd hused hnew
  | taken hused _ ih =>
    cases h' with
    | found hnew => exact absurd hused hnew
    | taken _ hrest =>
      obtain ⟨rfl, rfl⟩ := ih hrest
      exact ⟨rfl, rfl⟩

/-- The search tries the candidates up to the first one that is new. -/
lemma exists_search {n : Nat} (hnew : candidate (k + n) ∉ used)
    (hused : ∀ m < n, candidate (k + m) ∈ used) :
    ∃ tried, Search used candidate k tried (candidate (k + n)) ∧ tried.length = n + 1 := by
  induction n generalizing k with
  | zero => exact ⟨_, .found hnew, rfl⟩
  | succ n ih =>
    have hshift : ∀ m, k + (m + 1) = k + 1 + m := by omega
    rw [hshift] at hnew ⊢
    obtain ⟨tried, hsearch, hlength⟩ := ih hnew fun m hm => by
      rw [← hshift]
      exact hused (m + 1) (Nat.succ_lt_succ hm)
    exact ⟨_, .taken (hused 0 (Nat.zero_lt_succ n)) hsearch, by rw [List.length_cons, hlength]⟩

/-- The first new candidate is among one candidate more than there are names in use. -/
lemma exists_first_not_mem (hinjective : Function.Injective candidate) (used : List String) :
    ∃ n ≤ used.toFinset.card, candidate n ∉ used ∧ ∀ m < n, candidate m ∈ used := by
  obtain ⟨n, hle, hnew⟩ := exists_le_not_mem hinjective used
  have hfree : ∃ n, candidate n ∉ used := ⟨n, hnew⟩
  refine ⟨Nat.find hfree, (Nat.find_min' hfree hnew).trans hle, Nat.find_spec hfree, fun m hm => ?_⟩
  exact not_not.1 (Nat.find_min hfree hm)

lemma numbered_ne_base (base : String) (n : Nat) : numbered base n ≠ base := by
  intro h
  have hlength := congrArg String.length h
  have hmark : "_".length = 1 := rfl
  rw [numbered, String.length_append, String.length_append] at hlength
  omega

lemma IsNumbered.unique {base name name' : String} (h : IsNumbered used base name)
    (h' : IsNumbered used base name') : name = name' := by
  obtain ⟨n, rfl, hnew, hmin⟩ := h
  obtain ⟨m, rfl, hnew', hmin'⟩ := h'
  rcases lt_trichotomy n m with hlt | rfl | hlt
  · exact absurd (hmin' n hlt) hnew
  · rfl
  · exact absurd (hmin m hlt) hnew'

end Searching

/-! ### Calls for names -/

/-- A call for a name. -/
inductive Request where
  /-- A name that is wanted in any case. -/
  | always (wanted : String)
  /-- A name that may be wanted, and the default base. -/
  | maybe (wanted : Option String) (default : String)

namespace Request

/-- The name that a call wants as it is.  One that may be missing is missing when it is empty. -/
def wanted? : Request → Option String
  | always wanted => some wanted
  | maybe wanted _ => wanted.filter (· ≠ "")

/-- The name that numbers are put behind. -/
def base : Request → String
  | always wanted => wanted
  | maybe wanted default => (wanted.filter (· ≠ "")).getD default

/-- The candidates of a call in their order. -/
def candidate (r : Request) : Nat → String :=
  match r.wanted? with
  | some wanted => fun
    | 0 => wanted
    | k + 1 => numbered r.base k
  | none => numbered r.base

/-- The name that a call gets when some names are in use. -/
def name (used : List String) : Request → String
  | always wanted => fresh used wanted
  | maybe wanted default => freshOr used wanted default

/-- Answers a call.  The state is the names in use. -/
def serve (r : Request) : StateM (List String) String := fun used =>
  (r.name used, r.name used :: used)

variable {used : List String} {r : Request} {wanted : String}

lemma base_of_wanted (h : r.wanted? = some wanted) : r.base = wanted := by
  cases r with
  | always name => exact Option.some.inj h
  | maybe name default =>
    have hname : name.filter (· ≠ "") = some wanted := h
    rw [base, hname, Option.getD_some]

lemma name_of_wanted (used : List String) (h : r.wanted? = some wanted) :
    r.name used = fresh used wanted := by
  cases r with
  | always name => rw [Request.name, Option.some.inj h]
  | maybe name default =>
    have hname : name.filter (· ≠ "") = some wanted := h
    simp only [Request.name, freshOr, hname]

lemma name_of_not_wanted (h : r.wanted? = none) : r.name used = freshNumbered used r.base := by
  cases r with
  | always name => cases h
  | maybe name default =>
    have hname : name.filter (· ≠ "") = none := h
    simp only [Request.name, base, freshOr, hname, Option.getD_none]

lemma candidate_zero (h : r.wanted? = some wanted) : r.candidate 0 = wanted := by
  rw [candidate, h]

lemma candidate_succ (h : r.wanted? = some wanted) (k : Nat) :
    r.candidate (k + 1) = numbered wanted k := by
  rw [candidate, h, base_of_wanted h]

lemma candidate_of_not_wanted (h : r.wanted? = none) : r.candidate = numbered r.base := by
  rw [candidate, h]

/-- No two candidates of a call are the same. -/
lemma candidate_injective (r : Request) : Function.Injective r.candidate := by
  cases h : r.wanted? with
  | none =>
    rw [candidate_of_not_wanted h]
    exact numbered_injective r.base
  | some wanted =>
    rintro (_ | i) (_ | j) hij
    · rfl
    · rw [candidate_zero h, candidate_succ h] at hij
      exact absurd hij.symm (numbered_ne_base wanted j)
    · rw [candidate_zero h, candidate_succ h] at hij
      exact absurd hij (numbered_ne_base wanted i)
    · rw [candidate_succ h, candidate_succ h] at hij
      rw [numbered_injective wanted hij]

lemma name_of_not_mem (h : r.wanted? = some wanted) (hnew : wanted ∉ used) :
    r.name used = wanted := by
  rw [name_of_wanted used h, (fresh_spec used wanted).1 hnew]

/-- A call that is not given the name it wants gets a number. -/
lemma isNumbered_name (h : ∀ wanted, r.wanted? = some wanted → wanted ∈ used) :
    IsNumbered used r.base (r.name used) := by
  cases hw : r.wanted? with
  | none =>
    rw [name_of_not_wanted hw]
    exact isNumbered_freshNumbered used r.base
  | some wanted =>
    rw [name_of_wanted used hw, base_of_wanted hw]
    exact (fresh_spec used wanted).2 (h wanted hw)

/-- The name that a call gets is the first candidate that is new. -/
lemma name_eq_candidate {n : Nat} (hnew : r.candidate n ∉ used)
    (hused : ∀ m < n, r.candidate m ∈ used) : r.name used = r.candidate n := by
  cases h : r.wanted? with
  | none =>
    rw [candidate_of_not_wanted h] at hnew hused ⊢
    refine (isNumbered_name fun wanted hw => ?_).unique ⟨n, rfl, hnew, hused⟩
    rw [h] at hw
    cases hw
  | some wanted =>
    cases n with
    | zero =>
      rw [candidate_zero h] at hnew ⊢
      exact name_of_not_mem h hnew
    | succ k =>
      have hwanted : wanted ∈ used := candidate_zero h ▸ hused 0 (Nat.zero_lt_succ k)
      rw [candidate_succ h] at hnew ⊢
      have hmin : ∀ m < k, numbered wanted m ∈ used := fun m hm => by
        rw [← candidate_succ h]
        exact hused (m + 1) (Nat.succ_lt_succ hm)
      rw [name_of_wanted used h]
      exact IsNumbered.unique ((fresh_spec used wanted).2 hwanted) ⟨k, rfl, hnew, hmin⟩

/-- The search of a call ends with its name, after one candidate more at most than there are names
in use. -/
lemma search_name (used : List String) (r : Request) :
    ∃ tried, Search used r.candidate 0 tried (r.name used) ∧
      tried.length ≤ used.toFinset.card + 1 := by
  obtain ⟨n, hle, hnew, hused⟩ := exists_first_not_mem r.candidate_injective used
  rw [name_eq_candidate hnew hused]
  rw [← Nat.zero_add n] at hnew
  obtain ⟨tried, hsearch, hlength⟩ := exists_search hnew fun m hm => by
    rw [Nat.zero_add]
    exact hused m hm
  rw [Nat.zero_add] at hsearch
  exact ⟨tried, hsearch, by omega⟩

lemma name_not_mem (used : List String) (r : Request) : r.name used ∉ used := by
  cases r with
  | always wanted => exact fresh_not_mem used wanted
  | maybe wanted default => exact freshOr_not_mem used wanted default

/-- Calls in turn are given names in turn. -/
lemma run_mapM_serve (requests : List Request) (used : List String) :
    ((requests.mapM serve).run used).1 = assign (fun used r => r.name used) used requests := by
  induction requests generalizing used with
  | nil => rfl
  | cons r requests ih =>
    rw [assign, ← ih, List.mapM_cons]
    rfl

end Request

open Request

/-- A call for a name returns, whatever names are in use: its search ends after one candidate more
at most than there are different names in use.  The name it gives is new, it is in use afterwards,
and nothing else changes.  It is the wanted name if this is new, and otherwise the base with the
smallest number that makes it new.  So no two calls on the same names are given the same name. -/
theorem serve_gives_new_name (used : List String) :
    (∀ r : Request,
      (∃ tried, Search used r.candidate 0 tried (r.serve.run used).1 ∧
        tried.length ≤ used.toFinset.card + 1 ∧
        ∀ tried' name, Search used r.candidate 0 tried' name →
          tried' = tried ∧ name = (r.serve.run used).1) ∧
      (r.serve.run used).1 ∉ used ∧
      (∀ name, name ∈ (r.serve.run used).2 ↔ name = (r.serve.run used).1 ∨ name ∈ used) ∧
      (∀ wanted, r.wanted? = some wanted → wanted ∉ used → (r.serve.run used).1 = wanted) ∧
      ((∀ wanted, r.wanted? = some wanted → wanted ∈ used) →
        IsNumbered used r.base (r.serve.run used).1)) ∧
    ∀ requests : List Request, ((requests.mapM serve).run used).1.Nodup := by
  refine ⟨fun r => ⟨?_, name_not_mem used r, fun name => List.mem_cons, ?_, ?_⟩, fun requests => ?_⟩
  · obtain ⟨tried, hsearch, hlength⟩ := search_name used r
    exact ⟨tried, hsearch, hlength, fun tried' name h' => hsearch.unique h'⟩
  · intro wanted h hnew
    exact name_of_not_mem h hnew
  · intro h
    exact isNumbered_name h
  · rw [run_mapM_serve]
    exact nodup_assign name_not_mem used requests

/-- Names in use that look like numbered ones.  Of three calls the first one wants a name that is
taken, as is the one with the first number; the second one wants the empty name; and the third one
wants a name that is new. -/
theorem serve_gives_new_name_numbered :
    let used := ["a", "a_0", "bigmap_0"]
    let taken := Request.maybe (some "a") "bigmap"
    let unnamed := Request.maybe (some "") "bigmap"
    (taken.serve.run used).1 = "a_1" ∧ (unnamed.serve.run used).1 = "bigmap_1" ∧
      ((Request.always "b").serve.run used).1 = "b" ∧
      (∃ tried, Search used taken.candidate 0 tried "a_1" ∧ tried.length ≤ 4) ∧
      ([taken, .always "b", unnamed, .always "b"].mapM serve |>.run used).1.Nodup := by
  intro used taken unnamed
  obtain ⟨hcall, hcalls⟩ := serve_gives_new_name used
  obtain ⟨⟨tried, hsearch, hlength, -⟩, -, -, -, htaken⟩ := hcall taken
  have hname : (taken.serve.run used).1 = "a_1" :=
    (htaken (by decide)).unique ⟨1, by decide, by decide, by decide⟩
  have hunnamed : (unnamed.serve.run used).1 = "bigmap_1" :=
    ((hcall unnamed).2.2.2.2 (by decide)).unique ⟨1, by decide, by decide, by decide⟩
  refine ⟨hname, hunnamed, (hcall (.always "b")).2.2.2.1 "b" rfl (by decide), ?_, hcalls _⟩
  rw [hname] at hsearch
  exact ⟨tried, hsearch, hlength⟩

end Michelson.Names
