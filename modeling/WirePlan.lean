import WirePlan.Text.Blank
import WirePlan.Text.Quoted
import WirePlan.Text.Utf8
import WirePlan.Json.Reader
import WirePlan.Source.Blanking
import WirePlan.Options
import WirePlan.Condition
import WirePlan.Schema.Error
import WirePlan.Schema.Record
import WirePlan.Schema.Declaration
import WirePlan.Schema.Reading
import WirePlan.Schema.Expansion
import WirePlan.Schema.Checking
import WirePlan.Value.Printer
import WirePlan.Plan.Basic
import WirePlan.Main
import WirePlan.Codec.Encode
import WirePlan.Codec.Decode
import WirePlan.Codec.Sample
import WirePlan.Proofs.Outcome
import WirePlan.Proofs.Overflow
import WirePlan.Proofs.Layout.Wrapping
import WirePlan.Proofs.Layout.Amount
import WirePlan.Proofs.Layout.Placement
import WirePlan.Proofs.Layout.Step
import WirePlan.Proofs.Layout.Precedence
import WirePlan.Proofs.Layout.LaidOut
import WirePlan.Proofs.Layout.Stopping
import WirePlan.Proofs.Plan.OfSchema
import WirePlan.Proofs.Plan.Stopping
import WirePlan.Proofs.Plan.WellFormed
import WirePlan.Proofs.Schema.Checked
import WirePlan.Proofs.Codec.Scalar
import WirePlan.Proofs.Text.Utf8
import WirePlan.Proofs.Codec.Written
import WirePlan.Proofs.Keyed
import WirePlan.Proofs.Codec.Pieces
import WirePlan.Proofs.Codec.DecodeEncode
import WirePlan.Proofs.Codec.Steps
import WirePlan.Proofs.Codec.RoundTrip
import WirePlan.Proofs.Codec.Seen
import WirePlan.Proofs.Plan.Source
import WirePlan.Proofs.Codec.Tracking
import WirePlan.Proofs.Codec.EncodeDecode
import WirePlan.Proofs.Source.Scan
import WirePlan.Proofs.Source.Blanking
import WirePlan.Proofs.Schema.Linked
import WirePlan.Proofs.Plan.References
import WirePlan.Proofs.Plan.Dependencies
import WirePlan.Proofs.Layout.Cycles
import WirePlan.Proofs.Layout.Nesting
import WirePlan.Proofs.Plan.Cycles
import WirePlan.Proofs.Codec.Mismatch
import WirePlan.Proofs.Codec.Exact
import WirePlan.Proofs.Codec.Agreement
import WirePlan.Proofs.Schema.Steps
import WirePlan.Proofs.Schema.WellFormed
import WirePlan.Proofs.Codec.Coverage
import WirePlan.Proofs.Layout.Sizing
import WirePlan.Proofs.Plan.Constants
import WirePlan.Proofs.Json.Grammar
import WirePlan.Proofs.Json.Tokens
import WirePlan.Proofs.Json.Reading
import WirePlan.Proofs.Source.Decoration
import WirePlan.Proofs.Codec.TaggedStream
import WirePlan.Proofs.Codec.Inline
import WirePlan.Proofs.Codec.Queue
import WirePlan.Proofs.Keys
import WirePlan.Proofs.Schema.Expansion
import WirePlan.Proofs.Schema.Restyling
import WirePlan.Proofs.Layout.Restyling
import WirePlan.Proofs.Plan.Restyling
import WirePlan.Proofs.Plan.Templates
import WirePlan.Proofs.Schema.RecordOrder
import WirePlan.Proofs.Schema.Rearranged
import WirePlan.Proofs.Layout.Unique
import WirePlan.Proofs.Layout.Counting
import WirePlan.Proofs.Layout.LeastOrder
import WirePlan.Proofs.Plan.Unique
import WirePlan.Proofs.Plan.RecordOrder
import WirePlan.Proofs.Plan.Locality
import WirePlan.Proofs.Layout.History
import WirePlan.Proofs.Plan.Depth
import WirePlan.Proofs.Codec.Throughout
import WirePlan.Proofs.Codec.Decoded
import WirePlan.Proofs.Codec.Failure
import WirePlan.Proofs.Codec.Reached
import WirePlan.Proofs.Codec.Prefix
import WirePlan.Proofs.Codec.Truncation
import WirePlan.Proofs.Codec.Extent
import WirePlan.Proofs.Codec.Acceptance
import WirePlan.Proofs.Codec.Encodable
import WirePlan.Proofs.Layout.Evaluation
import WirePlan.Proofs.Layout.Gating
import WirePlan.Proofs.Codec.FixedSize
import WirePlan.Proofs.Codec.Recursion
import WirePlan.Proofs.Codec.Elements
import WirePlan.Proofs.Plan.Emission
import WirePlan.Proofs.Codec.Wrapping
import WirePlan.Proofs.Codec.Sample
import WirePlan.Proofs.Codec.Strands
import WirePlan.Proofs.Codec.Orders
import WirePlan.Proofs.Schema.Boxes
import WirePlan.Proofs.Codec.Restyling
import WirePlan.Proofs.Plan.Boxes
import WirePlan.Proofs.Text.Numeral
import WirePlan.Proofs.Literal
import WirePlan.Proofs.Schema.Conditions
import WirePlan.Proofs.Plan.Listing
import WirePlan.Proofs.Codec.SampleSums
