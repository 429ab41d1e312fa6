import SmaliFlow.Flow.Block
import SmaliFlow.Flow.Edge
import SmaliFlow.Flow.Layout

/-!
# Block graphs

The block graph of a method has one block for each group of rows.  Edges come
from three sources, in this order: from links between rows, from guarded ranges
to their handlers, and from each block to the next one unless its last
instruction ends the flow of control.
-/

namespace SmaliFlow.Flow

/-- The blocks of a method and its guarded ranges. -/
structure Graph where
  blocks : List Block
  ranges : List GuardedRange
  deriving DecidableEq, Repr

/-- The blocks that a guarded range meets, and those of its handlers. -/
structure Protection where
  guarded : List Nat
  handlers : List Nat
  deriving DecidableEq, Repr

namespace Protection

/-- Find the blocks of a guarded range and of its handlers. -/
def ofRange (spans : List Span) (owners : Owners) (range : GuardedRange) :
    Except Fault Protection := do
  let meeting := spans.zipIdx.filter fun (span, _) =>
    span.meets range.first.position range.lastProtected.position
  let handlers ← range.handlers.mapM owners.locate
  return { guarded := meeting.map Prod.snd, handlers }

/-- An edge from every guarded block to every handler. -/
def edges (protection : Protection) : List Edge :=
  protection.handlers.flatMap fun target =>
    protection.guarded.map fun source => { source, target }

end Protection

namespace Layout

/-- The owners of all positions. -/
def owners (layout : Layout) : Owners :=
  Owners.ofSpans layout.spans

/-- The edges of all links. -/
def linkEdges (layout : Layout) (owners : Owners) : Except Fault (List Edge) :=
  layout.links.mapM (Edge.ofLink owners)

/-- The protections of all guarded ranges. -/
def protections (layout : Layout) (owners : Owners) :
    Except Fault (List Protection) :=
  layout.ranges.mapM (Protection.ofRange layout.spans owners)

/--
Turn the groups into blocks, given the edges and the protections between them.
-/
def blocks
    (layout : Layout)
    (edges : List Edge)
    (protections : List Protection) :
    List Block :=
  let count := layout.groups.length
  let successors := Edge.successors count edges
  let predecessors := Edge.predecessors count edges
  let guarded := Std.TreeSet.ofList (protections.flatMap Protection.guarded)
  let handlers := Std.TreeSet.ofList (protections.flatMap Protection.handlers)
  layout.groups.zipIdx.map fun (rows, index) =>
    { index
      rows
      successors := successors[index]?.getD []
      predecessors := predecessors[index]?.getD []
      marks := rows.marks (guarded.contains index) (handlers.contains index) }

/-- Connect the groups of a layout. -/
def connect (layout : Layout) : Except Fault Graph := do
  let owners := layout.owners
  let linkEdges ← layout.linkEdges owners
  let protections ← layout.protections owners
  let edges :=
    linkEdges ++ protections.flatMap Protection.edges ++
      Edge.adjacent layout.groups
  return { blocks := layout.blocks edges protections, ranges := layout.ranges }

end Layout

/-- Rebuild the control flow of a method from its listing. -/
def Graph.build (listing : Listing) : Except Fault Graph := do
  let layout ← Layout.ofListing listing
  layout.connect

end SmaliFlow.Flow
