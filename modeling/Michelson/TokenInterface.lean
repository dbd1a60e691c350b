/-
# Token interfaces

The standard interfaces of token contracts.  A contract has an interface when it has an entrypoint
of every name in it, with an argument of the type that the interface asks for; annotations and the
layout of pairs do not matter.
-/
import Michelson.Entrypoint
import Michelson.Expr.Comb
import Michelson.Expr.Compare

namespace Michelson

/-- A standard interface of token contracts. -/
inductive TokenInterface where
  | fa1 | fa1_2 | fa2
deriving DecidableEq, Repr

namespace TokenInterface

/-- The interfaces in the order in which they are tried. -/
def all : List TokenInterface := [fa1, fa1_2, fa2]

/-- The name of an interface. -/
def name : TokenInterface → String
  | fa1 => "FA1"
  | fa1_2 => "FA1.2"
  | fa2 => "FA2"

/-- The pair of two types. -/
def pairOf (a b : Expr) : Expr := .type2 .pair a b

/-- The type of an address. -/
def address : Expr := .type0 .address

/-- The type of a natural number. -/
def nat : Expr := .type0 .nat

/-- A request for a value of a type: an argument, and the contract to answer to. -/
def request (argument answer : Expr) : Expr := pairOf argument (.type1 .contract answer)

/-- The types of a transfer, or of the rights of an operator, as a comb. -/
def comb (types : List Expr) : Expr := Expr.comb (.type .pair) types

/-- The entrypoints of an interface with the types of their arguments. -/
def required : TokenInterface → List (String × Expr)
  | fa1 => [
    ("transfer", comb [address, address, nat]),
    ("getBalance", request address nat),
    ("getTotalSupply", request (.type0 .unit) nat)]
  | fa1_2 => [
    ("transfer", comb [address, address, nat]),
    ("approve", pairOf address nat),
    ("getAllowance", request (pairOf address address) nat),
    ("getBalance", request address nat),
    ("getTotalSupply", request (.type0 .unit) nat)]
  | fa2 => [
    ("transfer", .type1 .list (pairOf address (.type1 .list (comb [address, nat, nat])))),
    ("balance_of",
      request (.type1 .list (pairOf address nat)) (.type1 .list (pairOf (pairOf address nat) nat))),
    ("update_operators",
      .type1 .list (.type2 .or (comb [address, address, nat]) (comb [address, address, nat])))]

/-- Whether a list of entrypoints has an interface. -/
def isIn (i : TokenInterface) (entrypoints : List Entrypoint) : Bool :=
  i.required.all fun (name, wanted) =>
    match Entrypoint.find? name entrypoints with
    | some e => e.type.nestPairs.sameShape wanted.nestPairs
    | none => false

/-- The first interface that a list of entrypoints has. -/
def first? (entrypoints : List Entrypoint) : Option TokenInterface :=
  all.find? fun i => i.isIn entrypoints

/-- The JSON form of an interface. -/
def toJson (i : TokenInterface) : Json := .text i.name

/-- Reads the name of an interface. -/
def ofDocument (levels : Nat) (d : Document) : Except ReadFault TokenInterface :=
  d.readChoice (all.map fun i => (i.name, i)) levels

end TokenInterface

end Michelson
