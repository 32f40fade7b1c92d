import EdgeProbe.Artifact.FileTree
import EdgeProbe.Artifact.Files
import EdgeProbe.Artifact.Write
import EdgeProbe.Code.Builder
import EdgeProbe.Code.Edit
import EdgeProbe.Code.Function
import EdgeProbe.Code.Initializer
import EdgeProbe.Code.Inst
import EdgeProbe.Code.Listing
import EdgeProbe.Code.Module
import EdgeProbe.Code.Operator
import EdgeProbe.Code.Symbol
import EdgeProbe.Code.Value
import EdgeProbe.CommandLine.Arguments
import EdgeProbe.CommandLine.Run
import EdgeProbe.Failure
import EdgeProbe.Flow.Dominators
import EdgeProbe.Flow.Edges
import EdgeProbe.Interchange.Code
import EdgeProbe.Interchange.Module
import EdgeProbe.Json.Reader
import EdgeProbe.Json.Value
import EdgeProbe.Json.Writer
import EdgeProbe.Literal.Consumer
import EdgeProbe.Literal.Finding
import EdgeProbe.Literal.Harvest
import EdgeProbe.Log
import EdgeProbe.Lowering.Chain
import EdgeProbe.Lowering.Compare
import EdgeProbe.Lowering.Magic
import EdgeProbe.Lowering.Select
import EdgeProbe.Lowering.StringCompare
import EdgeProbe.Lowering.StringSite
import EdgeProbe.Machine.Builtin
import EdgeProbe.Machine.Machine
import EdgeProbe.Machine.Memory
import EdgeProbe.Machine.Run
import EdgeProbe.Machine.State
import EdgeProbe.Main
import EdgeProbe.Pass
import EdgeProbe.Pipeline
import EdgeProbe.Probe.Hooks
import EdgeProbe.Probe.Instrument
import EdgeProbe.Probe.LandingPad
import EdgeProbe.Probe.Site
import EdgeProbe.Probe.SourceMap
import EdgeProbe.Proofs.Artifact.Places
import EdgeProbe.Proofs.Artifact.Texts
import EdgeProbe.Proofs.Artifact.Written
import EdgeProbe.Proofs.Code.Body
import EdgeProbe.Proofs.Code.Changes
import EdgeProbe.Proofs.Code.Does
import EdgeProbe.Proofs.Code.Images
import EdgeProbe.Proofs.Code.Inserted
import EdgeProbe.Proofs.Code.Opened
import EdgeProbe.Proofs.Code.Owned
import EdgeProbe.Proofs.Code.Patched
import EdgeProbe.Proofs.Code.Replaced
import EdgeProbe.Proofs.Code.Rerouted
import EdgeProbe.Proofs.Code.Whole
import EdgeProbe.Proofs.Coverage.Arena
import EdgeProbe.Proofs.Coverage.Classic
import EdgeProbe.Proofs.Coverage.Counted
import EdgeProbe.Proofs.Coverage.Fires
import EdgeProbe.Proofs.Coverage.Layout
import EdgeProbe.Proofs.Coverage.Session
import EdgeProbe.Proofs.Coverage.Unchanged
import EdgeProbe.Proofs.Flow.Dominance
import EdgeProbe.Proofs.Flow.Queries
import EdgeProbe.Proofs.Interchange.Code
import EdgeProbe.Proofs.Interchange.Module
import EdgeProbe.Proofs.Json.ReadBack
import EdgeProbe.Proofs.Literal.Consumers
import EdgeProbe.Proofs.Lowering.Bearers
import EdgeProbe.Proofs.Lowering.Candidates
import EdgeProbe.Proofs.Lowering.Chain
import EdgeProbe.Proofs.Lowering.Compares
import EdgeProbe.Proofs.Lowering.Counts
import EdgeProbe.Proofs.Lowering.Differences
import EdgeProbe.Proofs.Lowering.Exhausted
import EdgeProbe.Proofs.Lowering.Halves
import EdgeProbe.Proofs.Lowering.KeptStrings
import EdgeProbe.Proofs.Lowering.NormalForm
import EdgeProbe.Proofs.Lowering.Normalized
import EdgeProbe.Proofs.Lowering.Readers
import EdgeProbe.Proofs.Lowering.Recorded
import EdgeProbe.Proofs.Lowering.RecordedStrings
import EdgeProbe.Proofs.Lowering.Select
import EdgeProbe.Proofs.Lowering.Selections
import EdgeProbe.Proofs.Lowering.Sound
import EdgeProbe.Proofs.Lowering.StringSite
import EdgeProbe.Proofs.Lowering.Strings
import EdgeProbe.Proofs.Lowering.StringsSound
import EdgeProbe.Proofs.Lowering.Unrolled
import EdgeProbe.Proofs.Lowering.Unrolls
import EdgeProbe.Proofs.Machine.Budget
import EdgeProbe.Proofs.Machine.Compared
import EdgeProbe.Proofs.Machine.Contents
import EdgeProbe.Proofs.Machine.Regions
import EdgeProbe.Proofs.Machine.Severed
import EdgeProbe.Proofs.Machine.Soundness
import EdgeProbe.Proofs.Machine.StringOrder
import EdgeProbe.Proofs.Machine.Sustained
import EdgeProbe.Proofs.Probe.Abreast
import EdgeProbe.Proofs.Probe.Correspondence
import EdgeProbe.Proofs.Probe.Owned
import EdgeProbe.Proofs.Probe.Placed
import EdgeProbe.Proofs.Probe.Reseeded
import EdgeProbe.Proofs.Probe.Symbols
import EdgeProbe.Proofs.Probe.Tokens
import EdgeProbe.Proofs.Probe.Woven
import EdgeProbe.Proofs.Refusal.Comparing
import EdgeProbe.Proofs.Refusal.Instrumenting
import EdgeProbe.Proofs.Refusal.Prepared
import EdgeProbe.Proofs.Refusal.Rerun
import EdgeProbe.Proofs.Safety.Chains
import EdgeProbe.Proofs.Safety.Course
import EdgeProbe.Proofs.Safety.Edits
import EdgeProbe.Proofs.Safety.Instrumenting
import EdgeProbe.Proofs.Safety.Literals
import EdgeProbe.Proofs.Safety.Lowering
import EdgeProbe.Proofs.Safety.Modules
import EdgeProbe.Proofs.Safety.Passes
import EdgeProbe.Proofs.Safety.Pipeline
import EdgeProbe.Proofs.Safety.Probes
import EdgeProbe.Proofs.Safety.Sturdy
import EdgeProbe.Proofs.Safety.Verified
import EdgeProbe.Proofs.Token.Collected
import EdgeProbe.Proofs.Token.Escaped
import EdgeProbe.Proofs.Token.Lengths
import EdgeProbe.Proofs.Token.Listed
import EdgeProbe.Proofs.Token.Stages
import EdgeProbe.Proofs.Validity.Inserted
import EdgeProbe.Proofs.Validity.OwnPads
import EdgeProbe.Proofs.Validity.Passes
import EdgeProbe.Proofs.Validity.Patched
import EdgeProbe.Proofs.Validity.Probing
import EdgeProbe.Proofs.Validity.Rerouted
import EdgeProbe.Proofs.Word.Vectors
import EdgeProbe.Random.ChaCha
import EdgeProbe.Settings.Config
import EdgeProbe.Settings.Environment
import EdgeProbe.Sorted.Map
import EdgeProbe.Sorted.Set
import EdgeProbe.Text.Hex
import EdgeProbe.Text.Scan
import EdgeProbe.Text.Utf8
import EdgeProbe.Token.Annotations
import EdgeProbe.Token.Dictionary
import EdgeProbe.Token.Entry
import EdgeProbe.Token.Provenance
import EdgeProbe.Validity.Flaw
import EdgeProbe.Validity.Shape
import EdgeProbe.Validity.Verify
import EdgeProbe.Word
import EdgeProbe.Word.Lemmas
