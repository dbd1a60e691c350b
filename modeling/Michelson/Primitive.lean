/-
# Primitives

The vocabulary of the language.  A primitive is the keyword of a program section, a data
constructor, a type constructor, an instruction or the reference to a global constant; the class
is the shape of the value.  The table `Primitive.all` fixes the one-byte code of each primitive by
its position, and every primitive has one written name.
-/

namespace Michelson

/-- The keywords that open the sections of a program. -/
inductive SectionKeyword where
  | parameter | storage | code | view
deriving DecidableEq, Repr

/-- The written name of a section keyword. -/
def SectionKeyword.name : SectionKeyword → String
  | .parameter => "parameter"
  | .storage => "storage"
  | .code => "code"
  | .view => "view"

/-- The constructors of data. -/
inductive DataConstructor where
  | false | elt | left | none | pair | right | some | true | unit | lambdaRec | ticket
deriving DecidableEq, Repr

/-- The written name of a data constructor, capitalised. -/
def DataConstructor.name : DataConstructor → String
  | .false => "False"
  | .elt => "Elt"
  | .left => "Left"
  | .none => "None"
  | .pair => "Pair"
  | .right => "Right"
  | .some => "Some"
  | .true => "True"
  | .unit => "Unit"
  | .lambdaRec => "Lambda_rec"
  | .ticket => "Ticket"

/-- The constructors of types. -/
inductive TypeConstructor where
  | bool | contract | int | key | keyHash | lambda | list | map | bigMap | nat | option | or
  | pair | set | signature | string | bytes | mutez | timestamp | unit | operation | address
  | chainId | never | bls12_381G1 | bls12_381G2 | bls12_381Fr | saplingState
  | saplingTransactionDeprecated | ticket | chest | chestKey | txRollupL2Address
  | saplingTransaction
deriving DecidableEq, Repr

/-- The written name of a type constructor, in lower case. -/
def TypeConstructor.name : TypeConstructor → String
  | .bool => "bool"
  | .contract => "contract"
  | .int => "int"
  | .key => "key"
  | .keyHash => "key_hash"
  | .lambda => "lambda"
  | .list => "list"
  | .map => "map"
  | .bigMap => "big_map"
  | .nat => "nat"
  | .option => "option"
  | .or => "or"
  | .pair => "pair"
  | .set => "set"
  | .signature => "signature"
  | .string => "string"
  | .bytes => "bytes"
  | .mutez => "mutez"
  | .timestamp => "timestamp"
  | .unit => "unit"
  | .operation => "operation"
  | .address => "address"
  | .chainId => "chain_id"
  | .never => "never"
  | .bls12_381G1 => "bls12_381_g1"
  | .bls12_381G2 => "bls12_381_g2"
  | .bls12_381Fr => "bls12_381_fr"
  | .saplingState => "sapling_state"
  | .saplingTransactionDeprecated => "sapling_transaction_deprecated"
  | .ticket => "ticket"
  | .chest => "chest"
  | .chestKey => "chest_key"
  | .txRollupL2Address => "tx_rollup_l2_address"
  | .saplingTransaction => "sapling_transaction"

/-- The instructions. -/
inductive Instruction where
  | pack | unpack | blake2b | sha256 | sha512 | abs | add | amount | and | balance | car | cdr
  | checkSignature | compare | concat | cons | createAccount | createContract | implicitAccount
  | dip | drop | dup | ediv | emptyMap | emptySet | eq | exec | failwith | ge | get | gt
  | hashKey | if | ifCons | ifLeft | ifNone | int | lambda | le | left | loop | lsl | lsr | lt
  | map | mem | mul | neg | neq | nil | none | not | now | or | pair | push | right | size | some
  | source | sender | self | stepsToQuota | sub | swap | transferTokens | setDelegate | unit
  | update | xor | iter | loopLeft | address | contract | isnat | cast | rename | slice | dig
  | dug | emptyBigMap | apply | chainId | level | selfAddress | never | unpair | votingPower
  | totalVotingPower | keccak | sha3 | pairingCheck | saplingEmptyState | saplingVerifyUpdate
  | ticketDeprecated | readTicket | splitTicket | joinTickets | getAndUpdate | openChest | view
  | subMutez | minBlockTime | emit | lambdaRec | ticket | bytes | nat | isImplicitAccount
  | indexAddress | getAddressIndex
deriving DecidableEq, Repr

/-- The written name of an instruction, in upper case. -/
def Instruction.name : Instruction → String
  | .pack => "PACK"
  | .unpack => "UNPACK"
  | .blake2b => "BLAKE2B"
  | .sha256 => "SHA256"
  | .sha512 => "SHA512"
  | .abs => "ABS"
  | .add => "ADD"
  | .amount => "AMOUNT"
  | .and => "AND"
  | .balance => "BALANCE"
  | .car => "CAR"
  | .cdr => "CDR"
  | .checkSignature => "CHECK_SIGNATURE"
  | .compare => "COMPARE"
  | .concat => "CONCAT"
  | .cons => "CONS"
  | .createAccount => "CREATE_ACCOUNT"
  | .createContract => "CREATE_CONTRACT"
  | .implicitAccount => "IMPLICIT_ACCOUNT"
  | .dip => "DIP"
  | .drop => "DROP"
  | .dup => "DUP"
  | .ediv => "EDIV"
  | .emptyMap => "EMPTY_MAP"
  | .emptySet => "EMPTY_SET"
  | .eq => "EQ"
  | .exec => "EXEC"
  | .failwith => "FAILWITH"
  | .ge => "GE"
  | .get => "GET"
  | .gt => "GT"
  | .hashKey => "HASH_KEY"
  | .if => "IF"
  | .ifCons => "IF_CONS"
  | .ifLeft => "IF_LEFT"
  | .ifNone => "IF_NONE"
  | .int => "INT"
  | .lambda => "LAMBDA"
  | .le => "LE"
  | .left => "LEFT"
  | .loop => "LOOP"
  | .lsl => "LSL"
  | .lsr => "LSR"
  | .lt => "LT"
  | .map => "MAP"
  | .mem => "MEM"
  | .mul => "MUL"
  | .neg => "NEG"
  | .neq => "NEQ"
  | .nil => "NIL"
  | .none => "NONE"
  | .not => "NOT"
  | .now => "NOW"
  | .or => "OR"
  | .pair => "PAIR"
  | .push => "PUSH"
  | .right => "RIGHT"
  | .size => "SIZE"
  | .some => "SOME"
  | .source => "SOURCE"
  | .sender => "SENDER"
  | .self => "SELF"
  | .stepsToQuota => "STEPS_TO_QUOTA"
  | .sub => "SUB"
  | .swap => "SWAP"
  | .transferTokens => "TRANSFER_TOKENS"
  | .setDelegate => "SET_DELEGATE"
  | .unit => "UNIT"
  | .update => "UPDATE"
  | .xor => "XOR"
  | .iter => "ITER"
  | .loopLeft => "LOOP_LEFT"
  | .address => "ADDRESS"
  | .contract => "CONTRACT"
  | .isnat => "ISNAT"
  | .cast => "CAST"
  | .rename => "RENAME"
  | .slice => "SLICE"
  | .dig => "DIG"
  | .dug => "DUG"
  | .emptyBigMap => "EMPTY_BIG_MAP"
  | .apply => "APPLY"
  | .chainId => "CHAIN_ID"
  | .level => "LEVEL"
  | .selfAddress => "SELF_ADDRESS"
  | .never => "NEVER"
  | .unpair => "UNPAIR"
  | .votingPower => "VOTING_POWER"
  | .totalVotingPower => "TOTAL_VOTING_POWER"
  | .keccak => "KECCAK"
  | .sha3 => "SHA3"
  | .pairingCheck => "PAIRING_CHECK"
  | .saplingEmptyState => "SAPLING_EMPTY_STATE"
  | .saplingVerifyUpdate => "SAPLING_VERIFY_UPDATE"
  | .ticketDeprecated => "TICKET_DEPRECATED"
  | .readTicket => "READ_TICKET"
  | .splitTicket => "SPLIT_TICKET"
  | .joinTickets => "JOIN_TICKETS"
  | .getAndUpdate => "GET_AND_UPDATE"
  | .openChest => "OPEN_CHEST"
  | .view => "VIEW"
  | .subMutez => "SUB_MUTEZ"
  | .minBlockTime => "MIN_BLOCK_TIME"
  | .emit => "EMIT"
  | .lambdaRec => "LAMBDA_REC"
  | .ticket => "TICKET"
  | .bytes => "BYTES"
  | .nat => "NAT"
  | .isImplicitAccount => "IS_IMPLICIT_ACCOUNT"
  | .indexAddress => "INDEX_ADDRESS"
  | .getAddressIndex => "GET_ADDRESS_INDEX"

/-- A primitive of the language. -/
inductive Primitive where
  /-- A section keyword. -/
  | keyword (k : SectionKeyword)
  /-- A data constructor. -/
  | data (d : DataConstructor)
  /-- A type constructor. -/
  | type (t : TypeConstructor)
  /-- An instruction. -/
  | instruction (i : Instruction)
  /-- The reference to a global constant. -/
  | constant
deriving DecidableEq, Repr

namespace Primitive

/-- The written name of a primitive. -/
def name : Primitive → String
  | keyword k => k.name
  | data d => d.name
  | type t => t.name
  | instruction i => i.name
  | constant => "constant"

/-- All primitives in the order of their codes. -/
def all : List Primitive := [
  keyword .parameter, keyword .storage, keyword .code, data .false, data .elt, data .left,
  data .none, data .pair, data .right, data .some, data .true, data .unit, instruction .pack,
  instruction .unpack, instruction .blake2b, instruction .sha256, instruction .sha512,
  instruction .abs, instruction .add, instruction .amount, instruction .and,
  instruction .balance, instruction .car, instruction .cdr, instruction .checkSignature,
  instruction .compare, instruction .concat, instruction .cons, instruction .createAccount,
  instruction .createContract, instruction .implicitAccount, instruction .dip, instruction .drop,
  instruction .dup, instruction .ediv, instruction .emptyMap, instruction .emptySet,
  instruction .eq, instruction .exec, instruction .failwith, instruction .ge, instruction .get,
  instruction .gt, instruction .hashKey, instruction .if, instruction .ifCons,
  instruction .ifLeft, instruction .ifNone, instruction .int, instruction .lambda,
  instruction .le, instruction .left, instruction .loop, instruction .lsl, instruction .lsr,
  instruction .lt, instruction .map, instruction .mem, instruction .mul, instruction .neg,
  instruction .neq, instruction .nil, instruction .none, instruction .not, instruction .now,
  instruction .or, instruction .pair, instruction .push, instruction .right, instruction .size,
  instruction .some, instruction .source, instruction .sender, instruction .self,
  instruction .stepsToQuota, instruction .sub, instruction .swap, instruction .transferTokens,
  instruction .setDelegate, instruction .unit, instruction .update, instruction .xor,
  instruction .iter, instruction .loopLeft, instruction .address, instruction .contract,
  instruction .isnat, instruction .cast, instruction .rename, type .bool, type .contract,
  type .int, type .key, type .keyHash, type .lambda, type .list, type .map, type .bigMap,
  type .nat, type .option, type .or, type .pair, type .set, type .signature, type .string,
  type .bytes, type .mutez, type .timestamp, type .unit, type .operation, type .address,
  instruction .slice, instruction .dig, instruction .dug, instruction .emptyBigMap,
  instruction .apply, type .chainId, instruction .chainId, instruction .level,
  instruction .selfAddress, type .never, instruction .never, instruction .unpair,
  instruction .votingPower, instruction .totalVotingPower, instruction .keccak,
  instruction .sha3, instruction .pairingCheck, type .bls12_381G1, type .bls12_381G2,
  type .bls12_381Fr, type .saplingState, type .saplingTransactionDeprecated,
  instruction .saplingEmptyState, instruction .saplingVerifyUpdate, type .ticket,
  instruction .ticketDeprecated, instruction .readTicket, instruction .splitTicket,
  instruction .joinTickets, instruction .getAndUpdate, type .chest, type .chestKey,
  instruction .openChest, instruction .view, keyword .view, constant, instruction .subMutez,
  type .txRollupL2Address, instruction .minBlockTime, type .saplingTransaction,
  instruction .emit, data .lambdaRec, instruction .lambdaRec, instruction .ticket,
  instruction .bytes, instruction .nat, data .ticket, instruction .isImplicitAccount,
  instruction .indexAddress, instruction .getAddressIndex]

/-- The one-byte code of a primitive: its position in the table. -/
def code (p : Primitive) : UInt8 :=
  UInt8.ofNat (all.idxOf p)

/-- The primitive with a one-byte code. -/
def ofCode? (c : UInt8) : Option Primitive :=
  all[c.toNat]?

/-- The primitive with a written name, matched exactly. -/
def ofName? (s : String) : Option Primitive :=
  all.find? fun p => p.name == s

/-- Some primitives in the order of their codes, each once. -/
def sort (prims : List Primitive) : List Primitive := all.filter prims.contains

/-- Whether a primitive is a section keyword. -/
def isKeyword : Primitive → Bool
  | keyword _ => true
  | _ => false

/-- Whether a primitive constructs data. -/
def isData : Primitive → Bool
  | data _ => true
  | _ => false

/-- Whether a primitive constructs a type. -/
def isType : Primitive → Bool
  | type _ => true
  | _ => false

/-- Whether a primitive is an instruction. -/
def isInstruction : Primitive → Bool
  | instruction _ => true
  | _ => false

/-- Whether a primitive pairs its arguments, as data or as a type. -/
def isPair : Primitive → Bool
  | data .pair => true
  | type .pair => true
  | _ => false

end Primitive

end Michelson
