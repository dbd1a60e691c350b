/-
# Tours step by step

Whoever walks into a pair without arguments finds the pair itself there, and goes from the pair to
the pair until told to pass over it.  Nothing says that this ends, so a tour is given up after some
rounds.  Here a tour is told one step after the other: a *stage* has the values visited so far and
what is left to do, and a run from stage to stage may be as long as it likes.

A tour is a stage of such a run, and it is the last one unless the tour was given up in front of a
pair without arguments (`exists_isStage_tour`).  Whatever the answers are and however far a run has
come, the values visited are some of those that are reached from the top by going to parts
(`reaches_of_isStage`): every step keeps this of the values visited and of all that is left to do.
-/
import Mathlib.Logic.Relation
import Michelson.Proofs.TypedValue.Tour

namespace Michelson

namespace TypedValue

/-! ### Reaching parts -/

/-- The values inside `v` with their paths.  `levels` has the names of all parts of the values on
the way down, from the top. -/
inductive Reaches (v : TypedValue) : (levels : List (List String)) → String → TypedValue → Prop
  /-- The value itself, inside all options and choices around it. -/
  | top {top : TypedValue} (h : v.unwrap = .ok top) : Reaches v [] "" top
  /-- What is inside a part of a value that is reached. -/
  | part {levels : List (List String)} {path name : String} {here part child : TypedValue}
    {parts : List (String × TypedValue)} (h : Reaches v levels path here)
    (hparts : here.children = .ok parts) (hmem : (name, part) ∈ parts)
    (hchild : part.unwrap = .ok child) :
    Reaches v (levels ++ [parts.map Prod.fst]) (below path name) child

/-! ### Stages -/

/-- What there is to do on a tour. -/
inductive Task where
  /-- To visit what is inside the part at a path. -/
  | visit (path : String) (part : TypedValue)
  /-- To go on to the parts of the value at a path. -/
  | enter (path : String) (here : TypedValue)

/-- A tour under way. -/
structure Stage where
  /-- The values visited so far, in order. -/
  visited : List (String × TypedValue)
  /-- What is left to do, the next thing first. -/
  tasks : List Task

/-- The visits to the parts of the value at a path. -/
def visits (path : String) (parts : List (String × TypedValue)) : List Task :=
  parts.map fun part => .visit (below path part.1) part.2

/-- The stage one step later, unless nothing is left to do or a fault is in the way. -/
def Stage.next? (visitor : Visitor) : Stage → Option Stage
  | ⟨_, []⟩ => none
  | ⟨visited, .visit path part :: rest⟩ =>
    match part.unwrap with
    | .error _ => none
    | .ok child =>
      some ⟨visited ++ [(path, child)],
        if visitor visited path child then rest else .enter path child :: rest⟩
  | ⟨visited, .enter path here :: rest⟩ =>
    match here.children with
    | .error _ => none
    | .ok parts => some ⟨visited, visits path parts ++ rest⟩

/-- A run of steps from one stage to another. -/
abbrev Stage.Leads (visitor : Visitor) : Stage → Stage → Prop :=
  Relation.ReflTransGen fun s t => s.next? visitor = some t

/-- The stages of a tour of a value. -/
def IsStage (visitor : Visitor) (v : TypedValue) (s : Stage) : Prop :=
  ∃ top, v.unwrap = .ok top ∧ Stage.Leads visitor ⟨[], [.enter "" top]⟩ s

variable {visitor : Visitor} {v here : TypedValue} {path : String} {s t : Stage}
  {rest : List Task} {w : Walk}

namespace Stage

/-- All that a step can do. -/
lemma next?_eq_some (h : s.next? visitor = some t) :
    (∃ path part rest child, s.tasks = .visit path part :: rest ∧ part.unwrap = .ok child ∧
        t = ⟨s.visited ++ [(path, child)],
          if visitor s.visited path child then rest else .enter path child :: rest⟩) ∨
      ∃ path here rest parts, s.tasks = .enter path here :: rest ∧ here.children = .ok parts ∧
        t = ⟨s.visited, visits path parts ++ rest⟩ := by
  obtain ⟨visited, tasks⟩ := s
  match tasks with
  | [] => cases h
  | .visit path part :: rest =>
    simp only [next?] at h
    split at h
    · cases h
    · next child hchild =>
      exact .inl ⟨path, part, rest, child, rfl, hchild, (Option.some.inj h).symm⟩
  | .enter path here :: rest =>
    simp only [next?] at h
    split at h
    · cases h
    · next parts hparts =>
      exact .inr ⟨path, here, rest, parts, rfl, hparts, (Option.some.inj h).symm⟩

lemma next?_visit {part child : TypedValue} (hchild : part.unwrap = .ok child)
    (visitor : Visitor) (visited : List (String × TypedValue)) (path : String) (rest : List Task) :
    next? visitor ⟨visited, .visit path part :: rest⟩ = some ⟨visited ++ [(path, child)],
      if visitor visited path child then rest else .enter path child :: rest⟩ := by
  rw [next?, hchild]

lemma next?_enter {parts : List (String × TypedValue)} {visited : List (String × TypedValue)}
    (hparts : here.children = .ok parts) :
    next? visitor ⟨visited, .enter path here :: rest⟩ =
      some ⟨visited, visits path parts ++ rest⟩ := by
  rw [next?, hparts]

end Stage

/-! ### Tours are stages -/

/-- A walk has what a run visits that comes to the point where it has only `rest` to do, or that ends
earlier: at a fault, or in front of a pair without arguments. -/
inductive Traces (visitor : Visitor) (s : Stage) (rest : List Task) (w : Walk) : Prop
  /-- The run has only the rest to do. -/
  | done (hw : w.fault = none) (h : s.Leads visitor ⟨w.visited, rest⟩)
  /-- A fault is in the way of the next task. -/
  | stuck {task : Task} {tasks : List Task} (hw : w.fault.isSome)
    (h : s.Leads visitor ⟨w.visited, task :: tasks⟩)
    (hnext : Stage.next? visitor ⟨w.visited, task :: tasks⟩ = none)
  /-- The next task is to go on into a pair without arguments. -/
  | bare {path : String} {here : TypedValue} {tasks : List Task} (hw : w.fault.isSome)
    (h : s.Leads visitor ⟨w.visited, .enter path here :: tasks⟩) (hbare : isBarePair here.type)

namespace Traces

lemma head (h : s.next? visitor = some t) (ht : Traces visitor t rest w) :
    Traces visitor s rest w := by
  cases ht with
  | done hw hrun => exact .done hw (.head h hrun)
  | stuck hw hrun hnext => exact .stuck hw (.head h hrun) hnext
  | bare hw hrun hbare => exact .bare hw (.head h hrun) hbare

lemma leads (h : Traces visitor s rest w) (hw : w.fault = none) :
    s.Leads visitor ⟨w.visited, rest⟩ := by
  cases h with
  | done _ hrun => exact hrun
  | stuck hfault => simp [hw] at hfault
  | bare hfault => simp [hw] at hfault

/-- A walk that ended early does not come to the rest, whatever that is. -/
lemma of_fault {fault : ShapeFault} (h : Traces visitor s rest w) (hw : w.fault = some fault)
    (rest' : List Task) : Traces visitor s rest' w := by
  cases h with
  | done hnone => simp [hw] at hnone
  | stuck hfault hrun hnext => exact .stuck hfault hrun hnext
  | bare hfault hrun hbare => exact .bare hfault hrun hbare

lemma trans_leads (h : s.Leads visitor t) (ht : Traces visitor t rest w) :
    Traces visitor s rest w := by
  induction h using Relation.ReflTransGen.head_induction_on with
  | refl => exact ht
  | head h _ ih => exact ih.head h

end Traces

lemma foldl_tourPart_of_fault {fault : ShapeFault} (h : w.fault = some fault)
    (parts : List (String × TypedValue)) : parts.foldl (tourPart visitor path) w = w := by
  induction parts with
  | nil => rfl
  | cons part rest ih => rw [List.foldl_cons, tourPart_of_fault h, ih]

lemma traces_tourPart {part : String × TypedValue} (hw : w.fault = none)
    (ih : ∀ child, part.2.unwrap = .ok child → ∀ path w rest, w.fault = none →
      Traces visitor ⟨w.visited, .enter path child :: rest⟩ rest (tourBelow visitor path child w)) :
    Traces visitor ⟨w.visited, .visit (below path part.1) part.2 :: rest⟩ rest
      (tourPart visitor path w part) := by
  cases hpart : part.2.unwrap with
  | error fault =>
    rw [tourPart_of_error hw hpart]
    exact .stuck rfl .refl (by rw [Stage.next?, hpart])
  | ok child =>
    rw [tourPart_of_ok hw hpart]
    refine .head (Stage.next?_visit hpart visitor w.visited (below path part.1) rest) ?_
    split
    · exact .done hw .refl
    · exact ih child hpart _ (w.enter (below path part.1) child) rest hw

/-- Going through the parts of a value one after the other is doing the visits to them. -/
lemma traces_foldl_tourPart {parts : List (String × TypedValue)}
    (h : ∀ part ∈ parts, ∀ w rest, w.fault = none →
      Traces visitor ⟨w.visited, .visit (below path part.1) part.2 :: rest⟩ rest
        (tourPart visitor path w part)) (hw : w.fault = none) :
    Traces visitor ⟨w.visited, visits path parts ++ rest⟩ rest
      (parts.foldl (tourPart visitor path) w) := by
  induction parts generalizing w with
  | nil => exact .done hw .refl
  | cons part parts ih =>
    have hpart := h part List.mem_cons_self w (visits path parts ++ rest) hw
    rw [List.foldl_cons]
    cases hfirst : (tourPart visitor path w part).fault with
    | none =>
      have hrest := ih (fun c hc => h c (List.mem_cons_of_mem part hc)) hfirst
      exact hrest.trans_leads (hpart.leads hfirst)
    | some fault =>
      -- a tour that ended at the first part does not go on to the others
      rw [foldl_tourPart_of_fault hfirst]
      exact hpart.of_fault hfirst rest

/-- Going around a pair without arguments is a step to it and a step to its part each time. -/
lemma traces_tourRound {name : String} (hbare : isBarePair v.type)
    (hparts : v.children = .ok [(name, v)]) (rounds : Nat) : ∀ path w rest, w.fault = none →
      Traces visitor ⟨w.visited, .enter path v :: rest⟩ rest
        (tourRound visitor name v rounds path w) := by
  induction rounds with
  | zero => exact fun path w rest _ => .bare rfl .refl hbare
  | succ rounds ih =>
    intro path w rest hw
    have hvisit := Stage.next?_visit (unwrap_of_isBarePair hbare) visitor w.visited
      (below path name) rest
    rw [tourRound]
    refine .head (Stage.next?_enter hparts) (.head hvisit ?_)
    split
    · exact .done hw .refl
    · exact ih _ (w.enter (below path name) v) rest hw

lemma traces_tourBelow (v : TypedValue) : ∀ path w rest, w.fault = none →
    Traces visitor ⟨w.visited, .enter path v :: rest⟩ rest (tourBelow visitor path v w) := by
  induction v using inductParts with
  | bare here hbare =>
    intro path w rest hw
    rcases children_of_isBarePair hbare with hparts | ⟨name, hparts⟩
    · rw [tourBelow_of_error hparts]
      exact .stuck rfl .refl (by rw [Stage.next?, hparts])
    · rw [tourBelow_of_isBarePair hbare hparts hw]
      exact traces_tourRound hbare hparts maxRounds path w rest hw
  | step here hbare ih =>
    intro path w rest hw
    cases hparts : here.children with
    | error fault =>
      rw [tourBelow_of_error hparts]
      exact .stuck rfl .refl (by rw [Stage.next?, hparts])
    | ok parts =>
      rw [tourBelow_of_ok hbare hparts]
      exact .head (Stage.next?_enter hparts) (traces_foldl_tourPart
        (fun part hpart w rest hw => traces_tourPart hw (ih parts hparts part hpart)) hw)

/-- A tour is a stage.  Nothing is left to do there if no fault ended the tour, and there is no next
stage unless the tour was given up in front of a pair without arguments. -/
lemma exists_isStage_tour (visitor : Visitor) {top : TypedValue} (htop : v.unwrap = .ok top) :
    ∃ tasks, v.IsStage visitor ⟨(tour visitor v).visited, tasks⟩ ∧
      ((tour visitor v).fault = none ↔ tasks = []) ∧
      (Stage.next? visitor ⟨(tour visitor v).visited, tasks⟩ = none ∨
        ∃ path here rest, tasks = .enter path here :: rest ∧ isBarePair here.type) := by
  have htraces : Traces visitor ⟨[], [.enter "" top]⟩ [] (tour visitor v) := by
    rw [tour, htop]
    exact traces_tourBelow top "" .done [] rfl
  rcases htraces with ⟨hdone, hrun⟩ | ⟨hfault, hrun, hnext⟩ | ⟨hfault, hrun, hbare⟩
  · exact ⟨[], ⟨top, htop, hrun⟩, iff_of_true hdone rfl, .inl rfl⟩
  · exact ⟨_, ⟨top, htop, hrun⟩,
      iff_of_false (Option.isSome_iff_ne_none.1 hfault) (List.cons_ne_nil _ _), .inl hnext⟩
  · exact ⟨_, ⟨top, htop, hrun⟩,
      iff_of_false (Option.isSome_iff_ne_none.1 hfault) (List.cons_ne_nil _ _),
      .inr ⟨_, _, _, rfl, hbare⟩⟩

/-! ### What is visited -/

/-- What is to be visited or entered is reached. -/
def ReachesTask (v : TypedValue) : Task → Prop
  | .visit path part => ∀ child, part.unwrap = .ok child → ∃ levels, v.Reaches levels path child
  | .enter path here => ∃ levels, v.Reaches levels path here

/-- All that a stage has visited or has still to do is reached. -/
structure IsReached (v : TypedValue) (s : Stage) : Prop where
  visited : ∀ visit ∈ s.visited, ∃ levels, v.Reaches levels visit.1 visit.2
  tasks : ∀ task ∈ s.tasks, v.ReachesTask task

lemma reachesTask_visits {parts : List (String × TypedValue)} (h : v.ReachesTask (.enter path here))
    (hparts : here.children = .ok parts) : ∀ task ∈ visits path parts, v.ReachesTask task := by
  obtain ⟨levels, hreach⟩ := h
  refine List.forall_mem_map.2 fun part hpart child hchild => ?_
  exact ⟨_, hreach.part hparts hpart hchild⟩

/-- A step goes only to what is reached. -/
lemma IsReached.next (hs : v.IsReached s) (h : s.next? visitor = some t) : v.IsReached t := by
  obtain ⟨path, part, rest, child, htasks, hchild, rfl⟩ |
    ⟨path, here, rest, parts, htasks, hparts, rfl⟩ := Stage.next?_eq_some h
  · obtain ⟨hpart, hrest⟩ := List.forall_mem_cons.1 (htasks ▸ hs.tasks)
    have hreach : ∃ levels, v.Reaches levels path child := hpart child hchild
    refine ⟨List.forall_mem_append.2 ⟨hs.visited, List.forall_mem_singleton.2 hreach⟩, ?_⟩
    dsimp only
    split
    · exact hrest
    · exact List.forall_mem_cons.2 ⟨hreach, hrest⟩
  · obtain ⟨henter, hrest⟩ := List.forall_mem_cons.1 (htasks ▸ hs.tasks)
    exact ⟨hs.visited, List.forall_mem_append.2 ⟨reachesTask_visits henter hparts, hrest⟩⟩

lemma IsReached.leads (hs : v.IsReached s) (h : s.Leads visitor t) : v.IsReached t := by
  induction h with
  | refl => exact hs
  | tail _ h ih => exact ih.next h

lemma isReached_of_isStage (h : v.IsStage visitor s) : v.IsReached s := by
  obtain ⟨top, htop, hrun⟩ := h
  have hfirst : v.IsReached ⟨[], [.enter "" top]⟩ :=
    ⟨fun _ hnil => absurd hnil List.not_mem_nil, List.forall_mem_singleton.2 ⟨[], .top htop⟩⟩
  exact hfirst.leads hrun

/-- What a run visits is reached from the top. -/
lemma reaches_of_isStage (h : v.IsStage visitor s) {visit : String × TypedValue}
    (hvisit : visit ∈ s.visited) : ∃ levels, v.Reaches levels visit.1 visit.2 :=
  (isReached_of_isStage h).visited visit hvisit

/-- What a tour visits is reached from the top. -/
lemma reaches_of_mem_tour {visit : String × TypedValue} (h : visit ∈ (tour visitor v).visited) :
    ∃ levels, v.Reaches levels visit.1 visit.2 := by
  cases htop : v.unwrap with
  | error fault =>
    rw [tour, htop] at h
    exact absurd h List.not_mem_nil
  | ok top =>
    obtain ⟨tasks, hstage, -⟩ := exists_isStage_tour visitor htop
    exact reaches_of_isStage hstage h

end TypedValue

end Michelson
