import SmaliFlow.Flow.Span

/-!
# Layouts

The layout of a method is everything that is known before its blocks are
connected: the links between its rows, its guarded ranges, and the groups of
rows that become blocks.  Labels are resolved here, first those of jumps and
switches, then those of exception handlers.
-/

namespace SmaliFlow.Flow

/-- The links, guarded ranges and groups of a method. -/
structure Layout where
  links : List Link
  ranges : List GuardedRange
  groups : List Group
  deriving DecidableEq, Repr

namespace Layout

/-- Cut a listing into groups, given the links between its rows. -/
def groupsOf (listing : Listing) (links : List Link) : List Group :=
  Group.ofPieces (listing.pieces (listing.leaders links))

/-- Lay out a method. -/
def ofListing (listing : Listing) : Except Fault Layout := do
  let index := Index.ofListing listing
  let branchLinks ← index.branchLinks
  let guards ← index.guards
  let ranges := index.guardedRanges guards
  let guardLinks :=
    guards.flatMap fun guard => guard.links (index.exitOf ranges guard)
  let links := branchLinks ++ guardLinks
  return { links, ranges, groups := groupsOf listing links }

/-- The spans of the groups, in order. -/
def spans (layout : Layout) : List Span :=
  layout.groups.map Span.ofGroup

end Layout

end SmaliFlow.Flow
