/-
# Where paths lead

A walk makes the path of a part by putting its name behind the path of the whole, and a path is
followed by cutting it at the dots.  The two agree when the names can be told apart: when no two
parts of a value have one name, no name is empty and none has a dot in it.  A position that a name
spells does not get in the way, since a step looks for a name first.

The main statement is `get_of_reaches`: the path of a value that is visited leads to that value.  It
speaks of runs of any number of steps, so it has the walks in it that go on into a pair without
arguments.
-/
import Michelson.Proofs.Text.Split
import Michelson.Proofs.TypedValue.Stages

namespace Michelson

namespace TypedValue

open Michelson.Expr

/-! ### Segments -/

/-- The steps of a path: the texts between the dots, and none for the empty path. -/
def segments (path : String) : List String := if path = "" then [] else Text.split '.' path

/-- Names that a path can tell apart. -/
structure AreClear (names : List String) : Prop where
  nodup : names.Nodup
  ne_empty : ∀ name ∈ names, name ≠ ""
  no_dot : ∀ name ∈ names, '.' ∉ name.toList

lemma areClear_iff {names : List String} :
    AreClear names ↔ names.Nodup ∧ ∀ name ∈ names, name ≠ "" ∧ '.' ∉ name.toList := by
  constructor
  · intro h
    exact ⟨h.nodup, fun name hname => ⟨h.ne_empty name hname, h.no_dot name hname⟩⟩
  · rintro ⟨hnodup, hclear⟩
    exact ⟨hnodup, fun name hname => (hclear name hname).1, fun name hname => (hclear name hname).2⟩

lemma split_of_not_mem {name : String} (h : '.' ∉ name.toList) : Text.split '.' name = [name] := by
  rw [Text.split, Text.splitChars_of_not_mem h, List.map_singleton, String.ofList_toList]

lemma split_append_dot (path name : String) :
    Text.split '.' (path ++ "." ++ name) = Text.split '.' path ++ Text.split '.' name := by
  have hdot : (path ++ "." ++ name).toList = path.toList ++ '.' :: name.toList := by
    rw [String.toList_append, String.toList_append, List.append_assoc]
    rfl
  rw [Text.split, hdot, Text.splitChars_append_cons, List.map_append]
  rfl

/-- A part adds its name to the steps. -/
lemma segments_below {name : String} (hne : name ≠ "") (hdot : '.' ∉ name.toList) (path : String) :
    segments (below path name) = segments path ++ [name] := by
  rw [below, segments, segments]
  by_cases hpath : path = ""
  · rw [if_pos hpath, if_neg hne, if_pos hpath, split_of_not_mem hdot, List.nil_append]
  · have hlong : path ++ "." ++ name ≠ "" := by
      intro h
      have hnil := congrArg String.toList h
      simp at hnil
    rw [if_neg hpath, if_neg hlong, if_neg hpath, split_append_dot, split_of_not_mem hdot]

/-! ### Steps -/

variable {v here part child : TypedValue} {parts : List (String × TypedValue)}
  {path name : String}

/-- Following a path is taking its steps one after the other. -/
lemma get_eq (v : TypedValue) (path : String) :
    v.get path = v.unwrap.mapError ContractFault.shape >>= (segments path).foldlM (step path) := by
  rw [get, segments]
  split <;> rfl

lemma stepPosition?_of_nodup (hnodup : (parts.map Prod.fst).Nodup) {i : Nat}
    (h : parts[i]? = some (name, part)) : stepPosition? (parts.map Prod.fst) name = some i := by
  obtain ⟨hi, hpart⟩ := List.getElem?_eq_some_iff.1 h
  have hlt : i < (parts.map Prod.fst).length := by rwa [List.length_map]
  have hname : (parts.map Prod.fst)[i] = name := by rw [List.getElem_map, hpart]
  have hidx : (parts.map Prod.fst).idxOf? name = some i := by
    refine List.idxOf?_eq_some_iff.2 ⟨hlt, hname, fun j hj heq => ?_⟩
    exact hj.ne (hnodup.getElem_inj_iff.1 (heq.trans hname.symm))
  rw [stepPosition?, hidx]
  rfl

/-- A step by a name that no other part has leads to the part of that name, whatever the path it
belongs to. -/
lemma step_of_mem (hparts : here.children = .ok parts) (hnodup : (parts.map Prod.fst).Nodup)
    (hmem : (name, part) ∈ parts) (hchild : part.unwrap = .ok child) (whole : String) :
    step whole here name = .ok child := by
  obtain ⟨i, hi⟩ := List.mem_iff_getElem?.1 hmem
  rw [step, hparts]
  simp only [stepPosition?_of_nodup hnodup hi, Option.bind_some, hi, hchild]
  rfl

/-- The steps of the path of a value that is reached lead to it from the top. -/
lemma exists_steps_of_reaches {levels : List (List String)} (h : v.Reaches levels path here)
    (hclear : ∀ names ∈ levels, AreClear names) :
    ∃ top, v.unwrap = .ok top ∧
      ∀ whole, (segments path).foldlM (step whole) top = .ok here := by
  induction h with
  | top htop => exact ⟨_, htop, fun whole => rfl⟩
  | @part levels path name here part child parts h hparts hmem hchild ih =>
    obtain ⟨habove, hnames⟩ := List.forall_mem_append.1 hclear
    have hlast : AreClear (parts.map Prod.fst) := List.forall_mem_singleton.1 hnames
    have hname : name ∈ parts.map Prod.fst := List.mem_map_of_mem hmem
    obtain ⟨top, htop, hsteps⟩ := ih habove
    refine ⟨top, htop, fun whole => ?_⟩
    rw [segments_below (hlast.ne_empty name hname) (hlast.no_dot name hname), List.foldlM_append,
      hsteps whole, Except.ok_bind, List.foldlM_cons,
      step_of_mem hparts hlast.nodup hmem hchild, Except.ok_bind]
    rfl

/-- Every path that a walk reports leads back to the value that it reports.  The walk may decide by
all it has seen where to go on, may be ended by a fault, and may go from a pair without arguments to
that pair again as often as it is told to: the run of its steps ends where the tour ends, unless the
tour was given up in front of such a pair.  Whatever a run visits is reached from the top, and the
path of a value that is reached leads to it if, on the way down, no two parts of a value have one
name, no name is empty and none has a dot in it. -/
theorem get_of_reaches (v : TypedValue) :
    (∀ skip, tour (fun _ => skip) v = walk skip v) ∧
      (∀ visitor top, v.unwrap = .ok top → ∃ tasks,
        v.IsStage visitor ⟨(tour visitor v).visited, tasks⟩ ∧
          ((tour visitor v).fault = none ↔ tasks = []) ∧
          (Stage.next? visitor ⟨(tour visitor v).visited, tasks⟩ = none ∨
            ∃ path here rest, tasks = .enter path here :: rest ∧ isBarePair here.type)) ∧
      (∀ visitor stage, v.IsStage visitor stage →
        ∀ visit ∈ stage.visited, ∃ levels, v.Reaches levels visit.1 visit.2) ∧
      (∀ visitor, ∀ visit ∈ (tour visitor v).visited,
        ∃ levels, v.Reaches levels visit.1 visit.2) ∧
      ∀ levels path child, v.Reaches levels path child →
        (∀ names ∈ levels, names.Nodup ∧ ∀ name ∈ names, name ≠ "" ∧ '.' ∉ name.toList) →
        v.get path = .ok child := by
  refine ⟨fun skip => tour_eq_walk skip v, fun visitor top htop => exists_isStage_tour visitor htop,
    fun visitor stage hstage visit => reaches_of_isStage hstage,
    fun visitor visit => reaches_of_mem_tour, ?_⟩
  intro levels path child hreach hlevels
  obtain ⟨top, htop, hsteps⟩ :=
    exists_steps_of_reaches hreach fun names hnames => areClear_iff.2 (hlevels names hnames)
  rw [get_eq, htop]
  exact hsteps path

/-- A pair of a map of optional numbers and a number.  The walk visits the number in the map under a
path of two names, and the path leads to it.  A pair without arguments is inside itself, and so is
where a path of two names leads as well. -/
theorem get_of_reaches_ledger :
    let ledger := app (.type .map) [type0 .string, type1 .option (type0 .nat)] ["%ledger"]
      false false
    let entries := list [data2 .elt (string "a") (data1 .some (int 3))]
    let v : TypedValue := ⟨type2 .pair ledger (type0 .nat), data2 .pair entries (int 5)⟩
    let child : TypedValue := ⟨type0 .nat, int 3⟩
    let levels := [["ledger", "1"], ["a"]]
    let ring : TypedValue := ⟨app (.type .pair) [] ["%x"] false false, int 7⟩
    ((walk (fun _ _ => false) v).visited =
        [("ledger", ⟨ledger, entries⟩), ("ledger.a", child), ("1", ⟨type0 .nat, int 5⟩)] ∧
      v.Reaches levels "ledger.a" child ∧
      (∀ names ∈ levels, names.Nodup ∧ ∀ name ∈ names, name ≠ "" ∧ '.' ∉ name.toList) ∧
      v.get "ledger.a" = .ok child) ∧
      ring.Reaches [["x"], ["x"]] "x.x" ring ∧ ring.get "x.x" = .ok ring := by
  intro ledger entries v child levels ring
  have hplain : ∀ w : TypedValue, w.side? = none → w.unwrap = .ok w := fun w => unwrap_of_side?
  have hleaf : ∀ x, children ⟨type0 .nat, x⟩ = .ok [] := fun x => rfl
  have hfields : fields v.type v.value = some [⟨ledger, entries⟩, ⟨type0 .nat, int 5⟩] := by
    rw [fields_eq rfl rfl]
    rfl
  have hparts : v.children =
      .ok [("ledger", ⟨ledger, entries⟩), ("1", ⟨type0 .nat, int 5⟩)] := by
    rw [children, parts_of_fields rfl hfields]
    rfl
  have hentries : (⟨ledger, entries⟩ : TypedValue).children =
      .ok [("a", ⟨type1 .option (type0 .nat), data1 .some (int 3)⟩)] := by cbv
  have hchild : (⟨type1 .option (type0 .nat), data1 .some (int 3)⟩ : TypedValue).unwrap =
      .ok child := by cbv
  have hreach : v.Reaches levels "ledger.a" child :=
    ((Reaches.top (hplain v rfl)).part hparts List.mem_cons_self (hplain _ rfl)).part hentries
      List.mem_cons_self hchild
  have hclear : ∀ names ∈ levels, names.Nodup ∧ ∀ name ∈ names, name ≠ "" ∧ '.' ∉ name.toList := by
    decide
  have hring : ring.children = .ok [("x", ring)] := by
    rw [children, parts_of_fields rfl (fields_of_args_isEmpty rfl rfl)]
    rfl
  have hreachRing : ring.Reaches [["x"], ["x"]] "x.x" ring :=
    ((Reaches.top (hplain ring rfl)).part hring List.mem_cons_self (hplain ring rfl)).part hring
      List.mem_cons_self (hplain ring rfl)
  obtain ⟨-, -, -, -, hget⟩ := get_of_reaches v
  obtain ⟨-, -, -, -, hgetRing⟩ := get_of_reaches ring
  refine ⟨⟨?_, hreach, hclear, hget levels _ child hreach hclear⟩, hreachRing,
    hgetRing _ _ ring hreachRing (by decide)⟩
  rw [walk, hplain v rfl]
  simp only [walkBelow_of_ok rfl hparts, walkBelow_of_ok rfl hentries, walkBelow_of_nil (hleaf _),
    walkParts, walkPart, List.foldr_cons, List.foldr_nil, hplain ⟨ledger, entries⟩ rfl, hchild,
    hplain ⟨type0 .nat, int 5⟩ rfl, child]
  rfl

end TypedValue

end Michelson
