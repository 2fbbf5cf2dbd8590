import Schemata.CommandLine.LogFilter
import Schemata.Const.Literal
import Schemata.Main
import Schemata.Proofs.Schema.Descent
import Schemata.Proofs.Schema.Acceptance
import Schemata.Proofs.Pass.Conditional
import Schemata.Proofs.Json.Equality
import Schemata.Proofs.Pass.Const
import Schemata.Proofs.Schema.Everywhere
import Schemata.Proofs.Pass.Nullable
import Schemata.Proofs.Pass.Tuple
import Schemata.Proofs.Pass.Reference
import Schemata.Proofs.Json.Members
import Schemata.Proofs.Naming
import Schemata.Proofs.Pass.NormalForm
import Schemata.Proofs.Schema.Blocks
import Schemata.Proofs.Pass.Hoist
import Schemata.Proofs.Pass.HoistNames
import Schemata.Proofs.Document.Normalize
import Schemata.Proofs.Document.Load
import Schemata.Proofs.Json.Pointer
import Schemata.Proofs.Pass.HoistReference
import Schemata.Proofs.Pass.Report
import Schemata.Proofs.Document.Report
import Schemata.Proofs.Pass.NullableAcceptance
import Schemata.Proofs.Pass.ConstNullable
import Schemata.Proofs.TypeScript.Inhabitation
import Schemata.Proofs.TypeScript.Literal
import Schemata.Proofs.TypeScript.Soundness
import Schemata.Proofs.Text.Percent
import Schemata.Proofs.Document.Standalone
import Schemata.Proofs.Decoding.Decoder
import Schemata.Proofs.Decoding.Verdict
import Schemata.Proofs.Const.Literal
import Schemata.Proofs.Pass.BottomUp
import Schemata.Proofs.Decimal.Monotone
import Schemata.Proofs.Json.Scaling
import Schemata.Proofs.Json.Number
import Schemata.Proofs.Json.Reading
import Schemata.Proofs.Const.Admission
import Schemata.Proofs.Pass.TupleReading
import Schemata.Proofs.Pass.NullableReading
import Schemata.Proofs.Schema.Fields
import Schemata.Proofs.Schema.RoundTrip
import Schemata.Proofs.Pass.Lossless
import Schemata.Proofs.Pass.Displacement
import Schemata.Proofs.Document.Resolution
import Schemata.Proofs.Pass.DisplacementSteps
import Schemata.Proofs.Document.Names
import Schemata.Proofs.Text.Lines
import Schemata.Proofs.TypeScript.Tuple
import Schemata.Proofs.TypeScript.Refs
import Schemata.Proofs.TypeScript.Identifier
import Schemata.Proofs.TypeScript.Module
import Schemata.Proofs.TypeScript.Reference
import Schemata.Proofs.Pass.ConstValues
import Schemata.Proofs.Pass.HoistWorklist
import Schemata.Proofs.Pass.HoistBodies
import Schemata.Proofs.Pass.Properties
import Schemata.Proofs.Document.Issues
import Schemata.Proofs.Decimal.Rounding
import Schemata.Proofs.Decimal.Shortest
import Schemata.Proofs.Decimal.Notation
import Schemata.Proofs.Json.Quoted
import Schemata.Proofs.TypeScript.Grammar
import Schemata.Proofs.TypeScript.Reading
import Schemata.Proofs.TypeScript.Legible
import Schemata.Proofs.TypeScript.Atom
import Schemata.Proofs.TypeScript.Parsing
import Schemata.Proofs.Webhook.Check
import Schemata.Proofs.Text.Blank
import Schemata.Proofs.TypeScript.Layout
import Schemata.Proofs.TypeScript.Comment
import Schemata.Proofs.Yaml.Conversion
import Schemata.Proofs.Schema.Walk
import Schemata.Proofs.TypeScript.Sameness
import Schemata.Proofs.TypeScript.Combination
import Schemata.Proofs.TypeScript.Algebra
import Schemata.Proofs.Allocation
