/-
# Features of a program

The parts of the language that a program makes use of, as far as they matter to those who run or
index it.  A set of features is a list in the order of their bits.
-/
import Michelson.Expr.Traversal

namespace Michelson

/-- A feature of the language. -/
inductive Feature where
  | accountFactory | contractFactory | setDelegate | lambda | transferTokens | chainId | ticket
  | sapling | view | globalConstant | timelock | event
deriving DecidableEq, Repr

namespace Feature

/-- The features in the order of their bits. -/
def all : List Feature :=
  [accountFactory, contractFactory, setDelegate, lambda, transferTokens, chainId, ticket, sapling,
    view, globalConstant, timelock, event]

/-- The name of a feature. -/
def name : Feature → String
  | accountFactory => "account_factory"
  | contractFactory => "contract_factory"
  | setDelegate => "set_delegate"
  | lambda => "lambda"
  | transferTokens => "transfer_tokens"
  | chainId => "chain_id"
  | ticket => "ticket"
  | sapling => "sapling"
  | view => "view"
  | globalConstant => "global_constant"
  | timelock => "timelock"
  | event => "event"

/-- The feature that a primitive belongs to. -/
def ofPrimitive? : Primitive → Option Feature
  | .instruction .createAccount => some accountFactory
  | .instruction .createContract => some contractFactory
  | .instruction .setDelegate => some setDelegate
  | .instruction .lambda | .instruction .lambdaRec | .type .lambda | .data .lambdaRec => some lambda
  | .instruction .transferTokens => some transferTokens
  | .instruction .chainId | .type .chainId => some chainId
  | .type .ticket | .data .ticket | .instruction .ticket | .instruction .ticketDeprecated
  | .instruction .readTicket | .instruction .splitTicket | .instruction .joinTickets => some ticket
  | .type .saplingState | .type .saplingTransaction | .type .saplingTransactionDeprecated
  | .instruction .saplingEmptyState | .instruction .saplingVerifyUpdate => some sapling
  | .keyword .view | .instruction .view => some view
  | .constant => some globalConstant
  | .type .chest | .type .chestKey | .instruction .openChest => some timelock
  | .instruction .emit => some event
  | _ => none

/-- The features of some trees. -/
def ofTrees (trees : List Expr) : List Feature :=
  let found := (trees.flatMap Expr.nodes).filterMap fun e => e.prim?.bind ofPrimitive?
  all.filter found.contains

/-- The number with the bits of some features. -/
def bits (features : List Feature) : Nat :=
  (all.zipIdx.filter fun p => features.contains p.1).foldr (fun p n => Nat.pow 2 p.2 + n) 0

/-- The features of the bits of a number; other bits are dropped. -/
def ofBitsTruncated (n : Nat) : List Feature :=
  (all.zipIdx.filter fun p => n.testBit p.2).map Prod.fst

/-- The features of the bits of a number, if it has no other bits. -/
def ofBits? (n : Nat) : Option (List Feature) :=
  if n < Nat.pow 2 all.length then some (ofBitsTruncated n) else none

/-- The names of some features, separated by commas. -/
def text (features : List Feature) : String := ",".intercalate (features.map name)

end Feature

end Michelson
