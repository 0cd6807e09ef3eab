import ViewLint.Proofs.Binding.Places
import ViewLint.Proofs.Columns
import ViewLint.Proofs.Diagnostic.Messages
import ViewLint.Proofs.Diagnostic.Rulings
import ViewLint.Proofs.Document.Balance
import ViewLint.Proofs.Document.ByteOrderMark
import ViewLint.Proofs.Document.Kinds
import ViewLint.Proofs.Document.Machine
import ViewLint.Proofs.Document.Names
import ViewLint.Proofs.Document.Places
import ViewLint.Proofs.Document.Preorder
import ViewLint.Proofs.Document.Provenance
import ViewLint.Proofs.Document.Refinement
import ViewLint.Proofs.Document.Rejections
import ViewLint.Proofs.Document.Timeline
import ViewLint.Proofs.Excerpt
import ViewLint.Proofs.Forest
import ViewLint.Proofs.Lines
import ViewLint.Proofs.Markup.Constructs
import ViewLint.Proofs.Markup.Cursors
import ViewLint.Proofs.Markup.Directives
import ViewLint.Proofs.Markup.Imports
import ViewLint.Proofs.Markup.Offset.Scan
import ViewLint.Proofs.Markup.RawText
import ViewLint.Proofs.Markup.Tiling
import ViewLint.Proofs.Markup.TypeReferences
import ViewLint.Proofs.Markup.VoidElements
import ViewLint.Proofs.Probe.Boundaries
import ViewLint.Proofs.Probe.Chain
import ViewLint.Proofs.Probe.Evaluations
import ViewLint.Proofs.Probe.Layout
import ViewLint.Proofs.Probe.Ordered
import ViewLint.Proofs.Probe.Revisions
import ViewLint.Proofs.Probe.Trail
import ViewLint.Proofs.Resolve.Exports
import ViewLint.Proofs.Resolve.Findings
import ViewLint.Proofs.Resolve.Outcome
import ViewLint.Proofs.Resolve.Program
import ViewLint.Proofs.Resolve.Record
import ViewLint.Proofs.Resolve.Renaming
import ViewLint.Proofs.Resolve.Spans
import ViewLint.Proofs.Resolve.Spawning
import ViewLint.Proofs.Resolve.Values
import ViewLint.Proofs.Script.Members
import ViewLint.Proofs.Script.Runs
import ViewLint.Proofs.SourceMap.Associativity
import ViewLint.Proofs.SourceMap.Compose
import ViewLint.Proofs.SourceMap.Decoding
import ViewLint.Proofs.SourceMap.Rendering
import ViewLint.Proofs.SourceMap.Stretches
import ViewLint.View
