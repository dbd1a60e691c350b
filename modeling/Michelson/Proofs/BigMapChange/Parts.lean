/-
# The parts of a change

A change has up to four trees, and what the encodings do to it they do to its trees alone.  Two
changes are the same when they have the same kind, maps and hash and the same trees.
-/
import Michelson.BigMapChange
import Michelson.Proofs.Expr.RoundTrip

namespace Michelson.BigMapChange

/-- The trees of a change. -/
def trees (e : BigMapChange) : List Expr :=
  e.key.toList ++ e.value.toList ++ e.keyType.toList ++ e.valueType.toList

/-- The change with each tree replaced. -/
def mapTrees (f : Expr → Expr) (e : BigMapChange) : BigMapChange :=
  { e with key := e.key.map f, value := e.value.map f, keyType := e.keyType.map f,
           valueType := e.valueType.map f }

/-- The change without the hash of its key. -/
def dropKeyHash (e : BigMapChange) : BigMapChange := { e with keyHash := none }

/-- Whether two trees that may be absent are the same, annotations included. -/
def sameTree : Option Expr → Option Expr → Bool
  | some a, some b => a.same b
  | none, none => true
  | _, _ => false

/-- Whether two changes are the same, annotations included. -/
def same (a b : BigMapChange) : Bool :=
  a.action == b.action && a.id == b.id && a.keyHash == b.keyHash && sameTree a.key b.key &&
    sameTree a.value b.value && sameTree a.keyType b.keyType &&
    sameTree a.valueType b.valueType && a.source == b.source && a.dest == b.dest

/-- A change as it is built: an update, a removal, an allocation or a copy of maps with numbers of
64 bits, perhaps with the hash of the key. -/
inductive IsBuilt : BigMapChange → Prop
  | update (id : Int) (key value : Expr) (hid : isInt64 id) : IsBuilt (update id key value)
  | remove (id : Int) (key : Option Expr) (hid : isInt64 id) : IsBuilt (remove id key)
  | alloc (id : Int) (keyType valueType : Expr) (hid : isInt64 id) :
    IsBuilt (alloc id keyType valueType)
  | copy (source dest : Int) (hsource : isInt64 source) (hdest : isInt64 dest) :
    IsBuilt (copy source dest)
  | addKeyHash (hash : String) (e : BigMapChange) (h : IsBuilt e) : IsBuilt (e.addKeyHash hash)

variable {f : Expr → Expr}

lemma sameTree_map (h : ∀ t, (f t).same t) (part : Option Expr) :
    sameTree (part.map f) part := by
  cases part with
  | none => rfl
  | some t => exact h t

/-- A change stays the same when each of its trees does. -/
lemma same_mapTrees (h : ∀ t, (f t).same t) (e : BigMapChange) : (e.mapTrees f).same e := by
  simp [same, mapTrees, sameTree_map h]

lemma map_eq_self {part : Option Expr} (h : ∀ t ∈ part, f t = t) : part.map f = part := by
  cases part with
  | none => rfl
  | some t => rw [Option.map_some, h t rfl]

lemma mapTrees_eq_self {e : BigMapChange} (h : ∀ t ∈ e.trees, f t = t) : e.mapTrees f = e := by
  simp only [trees, List.mem_append, Option.mem_toList] at h
  rw [mapTrees, map_eq_self fun t ht => h t (Or.inl (Or.inl (Or.inl ht))),
    map_eq_self fun t ht => h t (Or.inl (Or.inl (Or.inr ht))),
    map_eq_self fun t ht => h t (Or.inl (Or.inr ht)), map_eq_self fun t ht => h t (Or.inr ht)]

end Michelson.BigMapChange
