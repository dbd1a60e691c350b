/-
# Paths into a typed value

Every part of a value has a name: the label of a field or its position, the position of an item,
the rendered key of an entry of a map.  A path is a list of names with dots between them; a step
may also be the position of a part.  Options and choices are looked through before every step, so
no path names them.
-/
import Michelson.Text.Split
import Michelson.TypedValue.Render

namespace Michelson

namespace TypedValue

/-! ### Named parts -/

/-- The name of a part. -/
def partName (v : TypedValue) : Part → Except ShapeFault String
  | .named name _ => .ok name
  | .keyed key _ => (render key).map memberName
  | .broken => .error v.mismatch

/-- The value that a part stands for. -/
def Part.child? : Part → Option TypedValue
  | named _ child => some child
  | keyed _ child => some child
  | broken => none

/-- The direct parts of a value with their names. -/
def children (v : TypedValue) : Except ShapeFault (List (String × TypedValue)) := do
  let ps ← v.parts
  let names ← ps.mapM v.partName
  return names.zip (ps.filterMap Part.child?)

theorem Part.mem_values_of_child? {p : Part} {c : TypedValue} (h : p.child? = some c) :
    c ∈ p.values := by
  cases p <;> simp_all [Part.child?, Part.values]

theorem sizeOf_type_children {v : TypedValue} {cs : List (String × TypedValue)}
    (hbare : isBarePair v.type = false) (h : v.children = .ok cs) :
    ∀ c ∈ cs, sizeOf c.2.type < sizeOf v.type := by
  unfold children at h
  match hp : v.parts with
  | .error _ => simp [hp, bind, Except.bind] at h
  | .ok ps =>
    match hn : ps.mapM v.partName with
    | .error _ => simp [hp, hn, bind, Except.bind] at h
    | .ok names =>
      simp only [hp, hn, bind, Except.bind, pure, Except.pure, Except.ok.injEq] at h
      subst h
      intro c hc
      obtain ⟨p, hmem, hchild⟩ := List.mem_filterMap.1 (List.of_mem_zip hc).2
      exact sizeOf_type_parts hbare hp p hmem _ (Part.mem_values_of_child? hchild)

/-! ### Steps -/

/-- The position of the part that a step leads to: the first part of that name, else the part at
the position that the step spells. -/
def stepPosition? (names : List String) (step : String) : Option Nat :=
  names.idxOf? step <|> (Decimal.unsigned? step).filter (· < names.length)

/-- The part that a step of the path `whole` leads to. -/
def step (whole : String) (v : TypedValue) (name : String) : Except ContractFault TypedValue :=
  match v.children with
  | .error fault => .error (.shape fault)
  | .ok parts =>
    match (stepPosition? (parts.map Prod.fst) name).bind fun i => parts[i]? with
    | none => .error (.path whole name)
    | some (_, child) => child.unwrap.mapError .shape

/-- The value at a path; the empty path is that of the value itself. -/
def get (v : TypedValue) (path : String) : Except ContractFault TypedValue := do
  let top ← v.unwrap.mapError .shape
  if path = "" then return top
  else (Text.split '.' path).foldlM (step path) top

/-! ### Reading what a value holds -/

/-- The address that a value holds, as bytes or as text with the checksum of a digest function,
without the name of an entrypoint. -/
def addressWith? (digest : Bytes → Bytes) (v : TypedValue) : Option Address := do
  let text ← v.value.string? <|> v.value.bytes?.bind (addressText? digest v.type)
  (Address.ofTextWith digest (Text.beforeFirst '%' text)).toOption

/-- The address that a value holds, as text or bytes, without the name of an entrypoint. -/
def address? (v : TypedValue) : Option Address := v.addressWith? Sha256.digest

/-- The key that a value holds, as bytes or as text with the checksum of a digest function. -/
def keyWith? (digest : Bytes → Bytes) (v : TypedValue) : Option Key :=
  match v.value.string? with
  | some text => (Key.ofTextWith digest text).toOption
  | none => v.value.bytes?.bind fun b => (Key.ofBytes b).toOption

/-- The key that a value holds, as text or bytes. -/
def key? (v : TypedValue) : Option Key := v.keyWith? Sha256.digest

/-- The signature that a value holds, as text or bytes. -/
def signature? (v : TypedValue) : Option Signature :=
  match v.value.string? with
  | some text => (Signature.ofText text).toOption
  | none => v.value.bytes?.bind fun b => (Signature.ofBytes b).toOption

/-- The truth value that a value holds. -/
def bool? (v : TypedValue) : Option Bool :=
  match v.value.prim? with
  | some (.data .true) => some true
  | some (.data .false) => some false
  | _ => none

/-- The number that a value holds, if it fits a signed 64-bit word. -/
def int64? (v : TypedValue) : Option Int := v.value.int?.filter isInt64

/-- What `reading` makes of the value at a path; nothing where the path does not lead to a value. -/
def read? {α : Type} (reading : TypedValue → Option α) (v : TypedValue) (path : String) :
    Option α :=
  (v.get path).toOption.bind reading

/-! ### Walks -/

/-- The path of a part whose name is given, below a path. -/
def below (path name : String) : String :=
  if path = "" then name else path ++ "." ++ name

/-- A walk: the values visited with their paths, and the fault that ended the walk. -/
structure Walk where
  /-- The values visited, in order. -/
  visited : List (String × TypedValue)
  /-- The fault that ended the walk. -/
  fault : Option ShapeFault

namespace Walk

/-- A walk that visits nothing and ends. -/
def done : Walk := ⟨[], none⟩

/-- A walk that a fault ends before it visits anything. -/
def failed (fault : ShapeFault) : Walk := ⟨[], some fault⟩

/-- A walk and then another, unless a fault ends the first. -/
def andThen (w next : Walk) : Walk :=
  match w.fault with
  | some _ => w
  | none => ⟨w.visited ++ next.visited, next.fault⟩

/-- A visit before a walk. -/
def visit (path : String) (v : TypedValue) (w : Walk) : Walk := ⟨(path, v) :: w.visited, w.fault⟩

end Walk

/-- The number of times that a walk goes from a pair without arguments to that pair again before it is
given up. -/
def maxRounds : Nat := 1024

/-- The walk around a pair without arguments, whose only part is the pair itself: it is visited again
and again, each time one name further down, until it is one on which `skip` holds. -/
def walkRound (skip : String → TypedValue → Bool) (name : String) (v : TypedValue) :
    (rounds : Nat) → (path : String) → Walk
  | 0, _ => .failed v.mismatch
  | rounds + 1, path =>
    let path := below path name
    .visit path v (if skip path v then .done else walkRound skip name v rounds path)

/-- Visits the values below a value from the top down, a value before its parts.  The parts of a
value on which `skip` holds are not visited. -/
def walkBelow (skip : String → TypedValue → Bool) (path : String) (v : TypedValue) : Walk :=
  match h : v.children with
  | .error fault => .failed fault
  | .ok parts =>
    if hbare : isBarePair v.type then
      parts.foldr (fun part rest => (walkRound skip part.1 part.2 maxRounds path).andThen rest) .done
    else
      parts.attach.foldr (fun ⟨(name, part), hp⟩ rest =>
        match hu : part.unwrap with
        | .error fault => .failed fault
        | .ok child =>
          have : sizeOf child.type < sizeOf v.type := Nat.lt_of_le_of_lt (sizeOf_type_unwrap hu)
            (sizeOf_type_children (by simpa using hbare) h _ hp)
          let path := below path name
          Walk.visit path child (if skip path child then rest
            else (walkBelow skip path child).andThen rest)) .done
termination_by sizeOf v.type

/-- Visits the values inside a value, but not the value itself. -/
def walk (skip : String → TypedValue → Bool) (v : TypedValue) : Walk :=
  match v.unwrap with
  | .error fault => .failed fault
  | .ok top => walkBelow skip "" top

end TypedValue

end Michelson
