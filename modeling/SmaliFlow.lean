import SmaliFlow.Application.Basic
import SmaliFlow.Application.FileTree
import SmaliFlow.Application.Path
import SmaliFlow.ClassFile.Attributes
import SmaliFlow.ClassFile.Basic
import SmaliFlow.ClassFile.Name
import SmaliFlow.ClassFile.Outline
import SmaliFlow.ClassFile.Region
import SmaliFlow.Event
import SmaliFlow.Field
import SmaliFlow.Flow.Block
import SmaliFlow.Flow.Discovery
import SmaliFlow.Flow.Edge
import SmaliFlow.Flow.Fault
import SmaliFlow.Flow.Graph
import SmaliFlow.Flow.Group
import SmaliFlow.Flow.Guard
import SmaliFlow.Flow.Index
import SmaliFlow.Flow.Layout
import SmaliFlow.Flow.Link
import SmaliFlow.Flow.Listing
import SmaliFlow.Flow.Span
import SmaliFlow.Instruction.Basic
import SmaliFlow.Instruction.Family
import SmaliFlow.Instruction.Operand
import SmaliFlow.Line
import SmaliFlow.Method.Basic
import SmaliFlow.Method.Header
import SmaliFlow.Modifier
import SmaliFlow.Settings
import SmaliFlow.SourceError
import SmaliFlow.Text.Bytes
import SmaliFlow.Text.Lines
import SmaliFlow.Text.Scan
import SmaliFlow.Text.Search
import SmaliFlow.Text.Utf8
import SmaliFlow.Proofs.Control
import SmaliFlow.Proofs.Links
import SmaliFlow.Proofs.Groups
import SmaliFlow.Proofs.Spans
import SmaliFlow.Proofs.Graph
import SmaliFlow.Proofs.Passage
import SmaliFlow.Proofs.Partition
import SmaliFlow.Proofs.Discovery
import SmaliFlow.Proofs.Simulation
import SmaliFlow.Proofs.Outline
import SmaliFlow.Proofs.Coverage
import SmaliFlow.Proofs.DepthFirst
import SmaliFlow.Proofs.Reachability
import SmaliFlow.Proofs.Boundaries
import SmaliFlow.Proofs.Verdict
import SmaliFlow.Proofs.Leaders
import SmaliFlow.Proofs.Rebuild
import SmaliFlow.Proofs.Search
import SmaliFlow.Proofs.Metadata
import SmaliFlow.Proofs.Division
import SmaliFlow.Proofs.Reading
import SmaliFlow.Proofs.Ownership
import SmaliFlow.Proofs.Relocation
import SmaliFlow.Proofs.Isolation
import SmaliFlow.Proofs.Extents
import SmaliFlow.Proofs.Resolvability
import SmaliFlow.Proofs.Labels
import SmaliFlow.Proofs.Paths
import SmaliFlow.Proofs.Enumeration
import SmaliFlow.Proofs.Loading
import SmaliFlow.Proofs.Protection
import SmaliFlow.Proofs.Accounting
import SmaliFlow.Proofs.Refusals
import SmaliFlow.Proofs.Declarations
import SmaliFlow.Proofs.Enclosures
import SmaliFlow.Proofs.Terminators
import SmaliFlow.Proofs.Limits
import SmaliFlow.Proofs.Indexing
import SmaliFlow.Proofs.Encoding
import SmaliFlow.Proofs.Packages
import SmaliFlow.Proofs.Scanning
import SmaliFlow.Proofs.Catching
import SmaliFlow.Proofs.Operands
import SmaliFlow.Proofs.Opcodes
import SmaliFlow.Proofs.Entries
import SmaliFlow.Proofs.Decoding
import SmaliFlow.Proofs.Headers
import SmaliFlow.Proofs.Fields
import SmaliFlow.Proofs.Wiring
import SmaliFlow.Proofs.Borders
import SmaliFlow.Proofs.Drafts
import SmaliFlow.Proofs.Jumps
import SmaliFlow.Proofs.Zones
import SmaliFlow.Proofs.Cutting
import SmaliFlow.Proofs.Joints
import SmaliFlow.Proofs.Drawing
import SmaliFlow.Proofs.Safety
