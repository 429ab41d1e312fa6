import SmaliFlow.Proofs.Joints

/-!
# Graphs by positions

A graph is drawn on the draft of a method: jumps and guarded ranges first, then
the groups between their leaders.  The rows of all groups are looked up before
anything joins the blocks, and so even if the blocks cannot be joined.

On a draft that says what a listing says, the graph is that of the listing, and
a method at fault has the same fault.  Hence a method is stuck only on its first
pass, where an index of the method may be out of range in the class.
-/

namespace SmaliFlow.Flow

/-- The block of a group, with what has been recorded at its place. -/
def Joints.block (joints : Joints) (entry : Group × Nat) : Checked Block := do
  let successors ← .ofOption joints.wiring.successors[entry.2]?
  let predecessors ← .ofOption joints.wiring.predecessors[entry.2]?
  let isGuarded ← .ofOption joints.guarded[entry.2]?
  let isHandler ← .ofOption joints.handlers[entry.2]?
  return {
    index := entry.2
    rows := entry.1
    successors
    predecessors
    marks := entry.1.marks isGuarded isHandler }

namespace Draft

/-- The rows at the positions of groups. -/
def groupRows (draft : Draft) (groups : List (List Nat)) :
    Checked (List Group) :=
  groups.mapM fun group => group.mapM draft.row

/-- The graph with the given jumps and guarded ranges. -/
def connect (draft : Draft) (jumps : List Jump) (ranges : List GuardedRange) :
    Checked Graph := do
  let leaders ← draft.leaders jumps ranges
  let groups ← draft.groups leaders
  let rows ← draft.groupRows groups
  let joints ← draft.joints groups jumps ranges
  let blocks ← rows.zipIdx.mapM joints.block
  return { blocks, ranges }

/-- Rebuild the control flow of a method from its draft. -/
def graph (draft : Draft) : Checked Graph := do
  let branchJumps ← draft.branchJumps
  let zoning ← draft.zoning
  draft.connect (branchJumps ++ zoning.jumps) zoning.ranges

/-- Rebuild the control flow of the lines with the given indices. -/
def rebuild (lines : Array Line) (ids : List Nat) : Checked Graph := do
  let draft ← ofIds lines ids
  draft.graph

end Draft

/-! ## Guarded blocks -/

namespace Protection

/--
If every range has a handler, the sources of all edges are the guarded blocks.
-/
theorem mem_sources_iff
    {protections : List Protection}
    (handled : ∀ protection ∈ protections, protection.handlers ≠ [])
    (block : Nat) :
    block ∈ (protections.flatMap edges).map Edge.source ↔
      block ∈ protections.flatMap guarded := by
  simp only [List.mem_map, List.mem_flatMap, edges]
  constructor
  · rintro ⟨_, ⟨protection, member, target, -, source, sourceMember, rfl⟩, rfl⟩
    exact ⟨protection, member, sourceMember⟩
  · rintro ⟨protection, member, guarded⟩
    rcases List.exists_mem_of_ne_nil _ (handled protection member) with
      ⟨target, targetMember⟩
    exact ⟨_, ⟨protection, member, target, targetMember, block, guarded, rfl⟩,
      rfl⟩

theorem handlers_ne_nil
    {spans : List Span}
    {owners : Owners}
    {range : GuardedRange}
    {protection : Protection}
    (found : ofRange spans owners range = .ok protection)
    (guarded : range.handlers ≠ []) :
    protection.handlers ≠ [] := by
  rcases bind_eq_ok_iff.mp found with ⟨handlers, mapped, returned⟩
  cases returned
  rintro rfl
  rw [mapM_eq_ok_iff, List.forall₂_nil_right_iff] at mapped
  exact guarded mapped

end Protection

namespace Joints

/-- The block of a group has what has been recorded at its place. -/
theorem block_ofEdges
    (group : Group)
    {count index : Nat}
    (inside : index < count)
    (edges : List Edge)
    (guarded handlers : List Nat) :
    (ofEdges count edges guarded handlers).block (group, index) =
      .value
        { index
          rows := group
          successors := (Edge.successors count edges)[index]?.getD []
          predecessors := (Edge.predecessors count edges)[index]?.getD []
          marks := group.marks (guarded.contains index)
            (handlers.contains index) } := by
  rw [block, ofEdges, Wiring.foldl_link_empty,
    Edge.getElem?_successors count edges index inside,
    Edge.getElem?_predecessors count edges index inside,
    getElem?_marksOf inside, getElem?_marksOf inside]
  rfl

/-- The blocks are those of the layout. -/
theorem mapM_block_ofEdges
    {layout : Layout}
    {protections : List Protection}
    (handled : ∀ protection ∈ protections, protection.handlers ≠ [])
    (edges : List Edge) :
    layout.groups.zipIdx.mapM
        (ofEdges layout.groups.length edges
          ((protections.flatMap Protection.edges).map Edge.source)
          (protections.flatMap Protection.handlers)).block =
      .value (layout.blocks edges protections) := by
  have guarded (index : Nat) :
      ((protections.flatMap Protection.edges).map Edge.source).contains index =
        (protections.flatMap Protection.guarded).contains index := by
    rw [Bool.eq_iff_iff, List.contains_iff_mem, List.contains_iff_mem]
    exact Protection.mem_sources_iff handled index
  rw [Layout.blocks]
  refine Checked.mapM_eq_value fun entry member => ?_
  have inside :=
    (List.getElem?_eq_some_iff.mp (List.mem_zipIdx_iff_getElem?.mp member)).1
  refine (block_ofEdges entry.1 inside edges _ _).trans ?_
  simp only [Std.TreeSet.contains_ofList, guarded]

end Joints

/-- The rows of groups are found at their positions. -/
theorem Draft.Reads.groupRows_eq
    {draft : Draft}
    {listing : Listing}
    (reads : draft.Reads listing)
    {groups : List Group}
    (members : ∀ group ∈ groups, ∀ row ∈ group, row ∈ listing) :
    draft.groupRows (groups.map (List.map Row.position)) = .value groups := by
  rw [groupRows, Checked.mapM_map_eq_value fun group member =>
    reads.mapM_row (members group member), List.map_id']

/-! ## Layouts by positions -/

namespace Layout.Origin

variable {listing : Listing} {layout : Layout} {guards : List Guard}

/-- Handlers are where links lead that cut the rows. -/
theorem handler_leads
    (positioned : listing.Positioned)
    (laid : Layout.ofListing listing = .ok layout)
    (origin : Origin listing layout guards) :
    ∀ range ∈ layout.ranges, ∀ handler ∈ range.handlers,
      handler.position ∈
        (layout.links.filter Link.cuts).map fun link =>
          link.target.position := by
  intro range rangeMember handler handlerMember
  rw [origin.ranges] at rangeMember
  rcases List.mem_map.mp rangeMember with ⟨pair, -, rfl⟩
  rcases List.mem_map.mp (List.mem_eraseDups.mp handlerMember) with
    ⟨guard, guardMember, rfl⟩
  have guards :=
    (origin.hasGuard_iff positioned guard).mp (List.mem_filter.mp guardMember).1
  have leads := Listing.Leads.handle guards
    (Listing.isLastProtected_lastProtected positioned guard.first guard.last)
  have member := (mem_links_iff positioned laid ⟨_, _, true⟩).mpr leads
  exact List.mem_map.mpr ⟨_, List.mem_filter.mpr ⟨member, rfl⟩, rfl⟩

theorem mem_of_mem_groups (origin : Origin listing layout guards) :
    ∀ group ∈ layout.groups, ∀ row ∈ group, row ∈ listing := by
  intro group member row rowMember
  have inside : row ∈ layout.groups.flatten :=
    List.mem_flatten.mpr ⟨group, member, rowMember⟩
  rw [origin.groups, flatten_groupsOf] at inside
  split at inside
  · exact ((listing.mem_body_iff row).mp inside).1
  · cases inside

end Layout.Origin

namespace Draft.Reads

variable {draft : Draft} {listing : Listing}

/-- Connecting jumps and ranges connects the groups of the layout. -/
theorem connect_eq
    (reads : draft.Reads listing)
    {layout : Layout}
    (laid : Layout.ofListing listing = .ok layout) :
    draft.connect (layout.links.map Link.jump) layout.ranges =
      .ofExcept layout.connect := by
  rcases Layout.exists_origin laid with ⟨guards, origin⟩
  rcases reads.exists_leaders (origin.handler_leads reads.positioned laid) with
    ⟨leaders, found, agree⟩
  have groups := reads.groups_eq agree
  rw [← origin.groups] at groups
  have separated : Group.Separated layout.groups := by
    rw [origin.groups]
    exact Layout.separated_groupsOf reads.positioned layout.links
  have ends : ∀ link ∈ layout.links,
      link.source ∈ listing ∧ link.target ∈ listing := by
    intro link member
    have leads := (Layout.mem_links_iff reads.positioned laid link).mp member
    exact ⟨leads.source_mem, leads.target_mem⟩
  have inside : ∀ range ∈ layout.ranges, range.Inside listing :=
    fun range => origin.inside reads.positioned
  have members := origin.mem_of_mem_groups
  rw [connect, found, Checked.value_bind, groups, Checked.value_bind,
    reads.groupRows_eq members, Checked.value_bind,
    reads.joints_eq separated members ends inside]
  simp only [Layout.connect, Layout.linkEdges, Layout.protections,
    Layout.owners, Layout.spans]
  cases layout.links.mapM (Edge.ofLink
    (Owners.ofSpans (layout.groups.map Span.ofGroup))) with
  | error cause => rfl
  | ok linkEdges =>
      cases guarded :
          layout.ranges.mapM (Protection.ofRange
            (layout.groups.map Span.ofGroup)
            (Owners.ofSpans (layout.groups.map Span.ofGroup))) with
      | error cause => rfl
      | ok protections =>
          have handled : ∀ protection ∈ protections,
              protection.handlers ≠ [] := by
            intro protection member
            rcases (mem_iff_of_mapM_eq_ok guarded protection).mp member with
              ⟨range, rangeMember, protects⟩
            exact Protection.handlers_ne_nil protects
              (inside range rangeMember).guarded
          simp only [bind, Except.bind, pure, Except.pure, Checked.ofExcept_ok,
            Joints.mapM_block_ofEdges handled]

/-- The graph of a draft is the graph of the listing. -/
theorem graph_eq (reads : draft.Reads listing) :
    draft.graph = .ofExcept (Graph.build listing) := by
  rw [graph, reads.branchJumps_eq, reads.zoning_eq, Graph.build]
  cases laid : Layout.ofListing listing with
  | ok layout =>
      rcases Layout.exists_origin laid with ⟨guards, origin⟩
      rcases origin.links with ⟨branchLinks, branches, links⟩
      refine Eq.trans ?_ (reads.connect_eq laid)
      rw [branches, origin.resolved, links, origin.ranges, List.map_append]
      rfl
  | error cause =>
      rw [Layout.ofListing] at laid
      cases branches : (Index.ofListing listing).branchLinks with
      | error other =>
          rw [branches] at laid
          cases laid
          rfl
      | ok branchLinks =>
          cases resolved : (Index.ofListing listing).guards with
          | error other =>
              rw [branches, resolved] at laid
              cases laid
              rfl
          | ok guards =>
              rw [branches, resolved] at laid
              cases laid

end Draft.Reads

/-- Rebuilding gives the graph of the listing, if all indices are in range. -/
theorem Draft.rebuild_of_ofIds?
    {lines : Array Line}
    {ids : List Nat}
    {listing : Listing}
    (listed : Listing.ofIds? lines ids = some listing) :
    rebuild lines ids = .ofExcept (Graph.build listing) := by
  rcases exists_reads listed with ⟨draft, surveyed, reads⟩
  rw [rebuild, surveyed, Checked.value_bind, reads.graph_eq]

/--
Rebuilding is stuck exactly if an index of the method is out of range in the
class.
-/
theorem Draft.rebuild_eq_stuck_iff (lines : Array Line) (ids : List Nat) :
    rebuild lines ids = .stuck ↔ ∃ id ∈ ids, lines.size ≤ id := by
  rw [← Listing.ofIds?_eq_none_iff]
  cases listed : Listing.ofIds? lines ids with
  | none =>
      rcases (Listing.ofIds?_eq_none_iff lines ids).mp listed with
        ⟨id, member, outside⟩
      simp [rebuild, ofIds_eq_stuck member outside]
  | some listing =>
      rw [rebuild_of_ofIds? listed]
      cases Graph.build listing <;> simp

end SmaliFlow.Flow
