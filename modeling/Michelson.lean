/-
# Contract data

Expression trees of contracts in their binary, JSON and text forms; packed bytes, addresses, keys
and signatures; entrypoints, storage, scripts, changes of big maps and typed values.  Log lines and
the wording of syntax errors in JSON texts are left out.
-/
import Michelson.Address
import Michelson.Base58
import Michelson.BigMapChange
import Michelson.Binary.Decoder
import Michelson.Binary.Zarith
import Michelson.Bytes
import Michelson.Bytes.Hex
import Michelson.Constant
import Michelson.ContractFault
import Michelson.Entrypoint
import Michelson.Error
import Michelson.Expr
import Michelson.Expr.Binary
import Michelson.Expr.Comb
import Michelson.Expr.Compare
import Michelson.Expr.Json
import Michelson.Expr.Text
import Michelson.Expr.Traversal
import Michelson.Expr.TypeParts
import Michelson.Feature
import Michelson.Json
import Michelson.Json.Document
import Michelson.Json.Printer
import Michelson.Json.Record
import Michelson.Key
import Michelson.NameMap
import Michelson.Names
import Michelson.Number.Binary64
import Michelson.Packed
import Michelson.Primitive
import Michelson.Proofs.Base58
import Michelson.Proofs.Base58.Checked
import Michelson.Proofs.BigMapChange.Binary
import Michelson.Proofs.BigMapChange.Parts
import Michelson.Proofs.BigMapChange.Record
import Michelson.Proofs.BigMapChange.RoundTrip
import Michelson.Proofs.BigMapChange.Shape
import Michelson.Proofs.BigMapChange.Streams
import Michelson.Proofs.Binary.Annotations
import Michelson.Proofs.Binary.Assembly
import Michelson.Proofs.Binary.Cursors
import Michelson.Proofs.Binary.Forward
import Michelson.Proofs.Binary.Reading
import Michelson.Proofs.Binary.SelfDelimiting
import Michelson.Proofs.Binary.Zarith
import Michelson.Proofs.Binary.Zarith.Grammar
import Michelson.Proofs.BinaryForm
import Michelson.Proofs.Bytes
import Michelson.Proofs.Bytes.Hex
import Michelson.Proofs.Constant.Expansion
import Michelson.Proofs.Constant.Need
import Michelson.Proofs.Constant.Stopping
import Michelson.Proofs.Entrypoint.Calls
import Michelson.Proofs.Entrypoint.Declared
import Michelson.Proofs.Entrypoint.FirstNamed
import Michelson.Proofs.Except
import Michelson.Proofs.Expr.Canonical
import Michelson.Proofs.Expr.Document
import Michelson.Proofs.Expr.Equality
import Michelson.Proofs.Expr.Exact
import Michelson.Proofs.Expr.Front
import Michelson.Proofs.Expr.Json
import Michelson.Proofs.Expr.JsonText
import Michelson.Proofs.Expr.Limit
import Michelson.Proofs.Expr.NestedPairs
import Michelson.Proofs.Expr.RoundTrip
import Michelson.Proofs.Expr.Same
import Michelson.Proofs.Expr.Spelling
import Michelson.Proofs.Expr.Traversal
import Michelson.Proofs.Json.Injective
import Michelson.Proofs.Json.Nesting
import Michelson.Proofs.Json.Printing
import Michelson.Proofs.Json.Record
import Michelson.Proofs.NameMap
import Michelson.Proofs.Names.Search
import Michelson.Proofs.Packed
import Michelson.Proofs.Packed.Opening
import Michelson.Proofs.Packed.Positions
import Michelson.Proofs.Packed.Readings
import Michelson.Proofs.Primitive
import Michelson.Proofs.Script.BothForms
import Michelson.Proofs.Script.Constants
import Michelson.Proofs.Script.FailedExpansion
import Michelson.Proofs.Script.Framing
import Michelson.Proofs.Script.RoundTrip
import Michelson.Proofs.Script.Types
import Michelson.Proofs.Storage.Align
import Michelson.Proofs.Storage.Bases
import Michelson.Proofs.Storage.BigMaps
import Michelson.Proofs.Storage.Declared
import Michelson.Proofs.Storage.Descent
import Michelson.Proofs.Storage.Labels
import Michelson.Proofs.Storage.Layout
import Michelson.Proofs.Storage.Nodes
import Michelson.Proofs.Storage.Slots
import Michelson.Proofs.Text.Split
import Michelson.Proofs.TextForm
import Michelson.Proofs.TokenInterface
import Michelson.Proofs.TypedValue.Below
import Michelson.Proofs.TypedValue.ChoiceFree
import Michelson.Proofs.TypedValue.Ending
import Michelson.Proofs.TypedValue.Fields
import Michelson.Proofs.TypedValue.KeyNames
import Michelson.Proofs.TypedValue.Keys
import Michelson.Proofs.TypedValue.Layouts
import Michelson.Proofs.TypedValue.Paths
import Michelson.Proofs.TypedValue.Rendering
import Michelson.Proofs.TypedValue.Spellings
import Michelson.Proofs.TypedValue.Stages
import Michelson.Proofs.TypedValue.Tour
import Michelson.Proofs.TypedValue.Walk
import Michelson.Scheme
import Michelson.Script
import Michelson.Script.Program
import Michelson.Sha256
import Michelson.Signature
import Michelson.Storage.BigMaps
import Michelson.Storage.Items
import Michelson.Text.Decimal
import Michelson.Text.Printable
import Michelson.Text.Quoted
import Michelson.Text.Split
import Michelson.Text.Utf8
import Michelson.TextForm
import Michelson.TokenInterface
import Michelson.TypedValue.Host
import Michelson.TypedValue.Parts
import Michelson.TypedValue.Path
import Michelson.TypedValue.Render
import Michelson.View
