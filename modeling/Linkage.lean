import Linkage.Ascending
import Linkage.Audit.Basic
import Linkage.Audit.Scan
import Linkage.Audit.Settings
import Linkage.Audit.Tally
import Linkage.Bytes
import Linkage.ClassFile.Access
import Linkage.ClassFile.Blueprint
import Linkage.ClassFile.Decode
import Linkage.ClassFile.Dialect
import Linkage.ClassFile.Encode
import Linkage.ClassFile.Pool
import Linkage.ClassFile.PoolDraft
import Linkage.ClassFile.View
import Linkage.ClassName
import Linkage.ClassPath.Index
import Linkage.ClassPath.Platform
import Linkage.Descriptor.Reading
import Linkage.Descriptor.Type
import Linkage.Event
import Linkage.Failure
import Linkage.Json.Basic
import Linkage.Json.Decoder
import Linkage.Json.Double
import Linkage.Json.Numeral
import Linkage.Json.Quoted
import Linkage.Json.Reading
import Linkage.Proofs.Artifacts
import Linkage.Proofs.Ascending
import Linkage.Proofs.Audit.Comparison
import Linkage.Proofs.Audit.Concurrency
import Linkage.Proofs.Audit.Exactness
import Linkage.Proofs.Audit.Inspection
import Linkage.Proofs.Audit.MissingClasses
import Linkage.Proofs.Audit.Shadowing
import Linkage.Proofs.ClassFile.Acceptance
import Linkage.Proofs.ClassFile.Interning
import Linkage.Proofs.ClassFile.Layout
import Linkage.Proofs.ClassFile.Prefixes
import Linkage.Proofs.ClassFile.RoundTrip
import Linkage.Proofs.ClassFile.Scan
import Linkage.Proofs.ClassNames
import Linkage.Proofs.ClassPath.Building
import Linkage.Proofs.ClassPath.FirstMatch
import Linkage.Proofs.Descriptors
import Linkage.Proofs.Json.Decoding
import Linkage.Proofs.Json.Text
import Linkage.Proofs.Operations
import Linkage.Proofs.References
import Linkage.Proofs.Reports
import Linkage.Proofs.Resolution.Ancestry
import Linkage.Proofs.Resolution.Classification
import Linkage.Proofs.Resolution.Lookup
import Linkage.Proofs.Resolution.Memory
import Linkage.Proofs.Resolution.Rows
import Linkage.Proofs.Resolution.Walk
import Linkage.Proofs.Resolution.Widening
import Linkage.Proofs.Storage.Deletion
import Linkage.Proofs.Storage.Interchange
import Linkage.Proofs.Storage.Paths
import Linkage.Proofs.Storage.Reach
import Linkage.Proofs.Storage.Trees
import Linkage.Proofs.Tallies
import Linkage.Proofs.Text.Utf8
import Linkage.Proofs.Unions
import Linkage.Reference.Basic
import Linkage.Reference.OfClass
import Linkage.Reference.Set
import Linkage.Report.Basic
import Linkage.Report.BrokenReference
import Linkage.Report.Export
import Linkage.Resolution.Hierarchy
import Linkage.Resolution.Inquiry
import Linkage.Resolution.Linker
import Linkage.Resolution.Outcome
import Linkage.Resolution.Rules
import Linkage.Storage.Artifact
import Linkage.Storage.FileTree
import Linkage.Storage.Path
import Linkage.Text.Escaped
import Linkage.Text.Lossy
import Linkage.Text.Printable
import Linkage.Text.Split
import Linkage.Proofs.Audit.SizeLimit
import Linkage.Proofs.Audit.Accounting
import Linkage.Proofs.Extraction
import Linkage.Proofs.Json.Nesting
import Linkage.Proofs.Json.Trees
import Linkage.Proofs.Resolution.Termination
import Linkage.Proofs.Audit.Extension
import Linkage.Proofs.ClassFile.Sharing
import Linkage.Proofs.DescriptorFaults
import Linkage.Proofs.Audit.Selection
import Linkage.Proofs.Exports
import Linkage.Proofs.ReadBack
import Linkage.Proofs.ClassFile.Lengths
import Linkage.Proofs.Resolution.AssumedSupertypes
import Linkage.Proofs.MeanTimes
import Linkage.Proofs.ClassFile.Pools
import Linkage.Proofs.NestedNames
import Linkage.Proofs.DescriptorPositions
import Linkage.Proofs.TallySums
