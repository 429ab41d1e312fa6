import SmaliFlow.Flow.Graph
import SmaliFlow.Proofs.Links
import SmaliFlow.Proofs.Spans

/-!
# Edges of a block graph

A graph that has been built is opened once, into its layout and the edges from
which its blocks were made.  An edge comes from a link between rows, from a
guarded range to one of its handlers, or from a block to the next one.  The
statements of this module say when each of these sources gives an edge between
two groups, in terms of the spans of the groups and of the relations between
rows.
-/

namespace SmaliFlow.Flow

/-- The graph of the lines with the given indices. -/
def Graph.ofIds? (lines : Array Line) (ids : List Nat) : Option Graph :=
  (Listing.ofIds? lines ids).bind fun listing => (Graph.build listing).toOption

theorem Graph.ofIds?_eq_some_iff
    {lines : Array Line}
    {ids : List Nat}
    {graph : Graph} :
    Graph.ofIds? lines ids = some graph ↔
      ∃ listing, Listing.ofIds? lines ids = some listing ∧
        Graph.build listing = .ok graph := by
  have returned (listing : Listing) :
      (Graph.build listing).toOption = some graph ↔
        Graph.build listing = .ok graph := by
    cases Graph.build listing <;> simp [Except.toOption]
  simp only [Graph.ofIds?, Option.bind_eq_some_iff, returned]

/-! ## The parts of a graph -/

/-- What a graph has been built from. -/
structure Graph.Assembly (listing : Listing) (graph : Graph) where
  layout : Layout
  linkEdges : List Edge
  protections : List Protection
  laid : Layout.ofListing listing = .ok layout
  linked : layout.linkEdges layout.owners = .ok linkEdges
  guarded : layout.protections layout.owners = .ok protections
  ranges : graph.ranges = layout.ranges
  blocks : graph.blocks = layout.blocks
    (linkEdges ++ protections.flatMap Protection.edges ++
      Edge.adjacent layout.groups)
    protections

theorem Graph.nonempty_assembly
    {listing : Listing}
    {graph : Graph}
    (built : Graph.build listing = .ok graph) :
    Nonempty (Graph.Assembly listing graph) := by
  rcases bind_eq_ok_iff.mp built with ⟨layout, laid, connected⟩
  rcases bind_eq_ok_iff.mp connected with ⟨linkEdges, linked, rest⟩
  rcases bind_eq_ok_iff.mp rest with ⟨protections, guarded, returned⟩
  cases returned
  exact ⟨layout, linkEdges, protections, laid, linked, guarded, rfl, rfl⟩

namespace Graph.Assembly

variable {listing : Listing} {graph : Graph}

/-- All edges of the graph, in the order in which they were found. -/
def edges (assembly : Assembly listing graph) : List Edge :=
  assembly.linkEdges ++ assembly.protections.flatMap Protection.edges ++
    Edge.adjacent assembly.layout.groups

theorem groups_eq (assembly : Assembly listing graph) :
    assembly.layout.groups = Layout.groupsOf listing assembly.layout.links := by
  rcases Layout.exists_origin assembly.laid with ⟨guards, origin⟩
  exact origin.groups

theorem separated
    (assembly : Assembly listing graph)
    (positioned : listing.Positioned) :
    Group.Separated assembly.layout.groups := by
  rw [assembly.groups_eq]
  exact Layout.separated_groupsOf positioned _

theorem flatten_groups (assembly : Assembly listing graph) :
    assembly.layout.groups.flatten =
      if listing.body.any Row.isCode then listing.body else [] := by
  rw [assembly.groups_eq]
  exact Layout.flatten_groupsOf listing _

/-- No guarded range ends before it begins. -/
theorem range_ordered
    (assembly : Assembly listing graph)
    (positioned : listing.Positioned)
    {guard : Guard}
    (guards : listing.HasGuard guard) :
    guard.first.position ≤ guard.last.position := by
  rcases Layout.exists_origin assembly.laid with ⟨resolvedGuards, origin⟩
  apply Index.ordered_of_guards_eq_ok positioned origin.resolved
  exact (origin.hasGuard_iff positioned guard).mpr guards

/-- The block with a given index has the rows of the group with that index. -/
theorem getElem?_blocks
    (assembly : Assembly listing graph)
    (index : Nat)
    (block : Block) :
    graph.blocks[index]? = some block →
      assembly.layout.groups[index]? = some block.rows ∧ block.index = index ∧
        ∀ target, target ∈ block.successors ↔
          { source := index, target : Edge } ∈ assembly.edges := by
  intro found
  rw [assembly.blocks, Layout.blocks, List.getElem?_map, Option.map_eq_some_iff]
    at found
  rcases found with ⟨⟨rows, place⟩, zipped, rfl⟩
  rw [List.getElem?_zipIdx, Option.map_eq_some_iff] at zipped
  rcases zipped with ⟨group, groupFound, equal⟩
  rw [Prod.mk.injEq, Nat.zero_add] at equal
  rcases equal with ⟨rfl, rfl⟩
  refine ⟨groupFound, rfl, ?_⟩
  intro target
  have inside : index < assembly.layout.groups.length :=
    (List.getElem?_eq_some_iff.mp groupFound).1
  simp only [Edge.getElem?_successors _ _ _ inside, Option.getD_some,
    List.mem_eraseDups, List.mem_map, List.mem_filter, beq_iff_eq]
  constructor
  · rintro ⟨edge, ⟨member, rfl⟩, rfl⟩
    exact member
  · intro member
    exact ⟨_, ⟨member, rfl⟩, rfl⟩

theorem length_blocks (assembly : Assembly listing graph) :
    graph.blocks.length = assembly.layout.groups.length := by
  rw [assembly.blocks, Layout.blocks, List.length_map, List.length_zipIdx]

theorem map_rows_blocks (assembly : Assembly listing graph) :
    graph.blocks.map Block.rows = assembly.layout.groups := by
  apply List.ext_getElem?
  intro index
  rw [List.getElem?_map]
  cases found : graph.blocks[index]? with
  | none =>
      rw [List.getElem?_eq_none_iff, assembly.length_blocks] at found
      rw [List.getElem?_eq_none_iff.mpr found]
      rfl
  | some block =>
      rw [(assembly.getElem?_blocks index block found).1]
      rfl

/-! ## Where edges come from -/

theorem mem_linkEdges_iff
    (assembly : Assembly listing graph)
    (positioned : listing.Positioned)
    (edge : Edge) :
    edge ∈ assembly.linkEdges ↔
      ∃ source target cuts, listing.Leads source target cuts ∧
        Group.Covers assembly.layout.groups edge.source source.position ∧
        Group.Covers assembly.layout.groups edge.target target.position := by
  rcases edge with ⟨first, second⟩
  rw [mem_iff_of_mapM_eq_ok assembly.linked]
  simp only [Layout.mem_links_iff positioned assembly.laid, Edge.ofLink,
    bind_eq_ok_iff, Layout.owners, Layout.spans,
    (assembly.separated positioned).locate_eq_ok_iff]
  constructor
  · rintro ⟨link, leads, source, sourceCovers, target, targetCovers, returned⟩
    cases returned
    exact ⟨link.source, link.target, link.cuts, leads, sourceCovers,
      targetCovers⟩
  · rintro ⟨source, target, cuts, leads, sourceCovers, targetCovers⟩
    exact ⟨⟨source, target, cuts⟩, leads, first, sourceCovers, second,
      targetCovers, rfl⟩

theorem mem_guarded_iff
    {layout : Layout}
    {range : GuardedRange}
    {protection : Protection}
    (found : Protection.ofRange layout.spans layout.owners range =
      .ok protection)
    (index : Nat) :
    index ∈ protection.guarded ↔
      Group.Meets layout.groups index range.first.position
        range.lastProtected.position := by
  rcases bind_eq_ok_iff.mp found with ⟨handlers, -, returned⟩
  cases returned
  simp only [List.mem_map, List.mem_filter, List.mem_zipIdx_iff_getElem?,
    Layout.spans, List.getElem?_map, Option.map_eq_some_iff, Prod.exists,
    Group.Meets]
  constructor
  · rintro ⟨span, place, ⟨⟨group, groupFound, rfl⟩, meets⟩, rfl⟩
    exact ⟨group, groupFound, meets⟩
  · rintro ⟨group, groupFound, meets⟩
    exact ⟨_, index, ⟨⟨group, groupFound, rfl⟩, meets⟩, rfl⟩

theorem mem_handlers_iff
    {layout : Layout}
    (separated : Group.Separated layout.groups)
    {range : GuardedRange}
    {protection : Protection}
    (found : Protection.ofRange layout.spans layout.owners range =
      .ok protection)
    (index : Nat) :
    index ∈ protection.handlers ↔
      ∃ handler ∈ range.handlers,
        Group.Covers layout.groups index handler.position := by
  rcases bind_eq_ok_iff.mp found with ⟨handlers, located, returned⟩
  cases returned
  rw [mem_iff_of_mapM_eq_ok located]
  simp only [Layout.owners, Layout.spans, separated.locate_eq_ok_iff]

theorem mem_protectionEdges_iff
    (assembly : Assembly listing graph)
    (positioned : listing.Positioned)
    (edge : Edge) :
    edge ∈ assembly.protections.flatMap Protection.edges ↔
      ∃ guard last, listing.HasGuard guard ∧
        listing.IsLastProtected guard.first guard.last last ∧
        Group.Meets assembly.layout.groups edge.source guard.first.position
          last.position ∧
        Group.Covers assembly.layout.groups edge.target
          guard.handler.position := by
  have separated := assembly.separated positioned
  rcases Layout.exists_origin assembly.laid with ⟨guards, origin⟩
  have ranges (handler : Row) :
      (∃ range ∈ assembly.layout.ranges, handler ∈ range.handlers ∧
        Group.Meets assembly.layout.groups edge.source range.first.position
          range.lastProtected.position) ↔
      ∃ guard, listing.HasGuard guard ∧ guard.handler = handler ∧
        Group.Meets assembly.layout.groups edge.source guard.first.position
          (listing.lastProtected guard.first guard.last).position := by
    rw [origin.ranges,
      Index.exists_mem_guardedRanges_iff guards handler fun first last =>
      Group.Meets assembly.layout.groups edge.source first.position
        last.position]
    simp only [origin.hasGuard_iff positioned]
  have sources :
      edge ∈ assembly.protections.flatMap Protection.edges ↔
        ∃ protection ∈ assembly.protections,
          edge.source ∈ protection.guarded ∧
            edge.target ∈ protection.handlers := by
    rcases edge with ⟨source, target⟩
    simp only [List.mem_flatMap, Protection.edges, List.mem_map, Edge.mk.injEq]
    constructor
    · rintro ⟨protection, member, _, handler, _, guarded, rfl, rfl⟩
      exact ⟨protection, member, guarded, handler⟩
    · rintro ⟨protection, member, guarded, handler⟩
      exact ⟨protection, member, target, handler, source, guarded, rfl, rfl⟩
  rw [sources]
  constructor
  · rintro ⟨protection, member, guarded, handled⟩
    rcases (mem_iff_of_mapM_eq_ok assembly.guarded protection).mp member with
      ⟨range, rangeMember, found⟩
    rw [mem_guarded_iff found] at guarded
    rcases (mem_handlers_iff separated found edge.target).mp handled with
      ⟨handler, handlerMember, covers⟩
    rcases (ranges handler).mp ⟨range, rangeMember, handlerMember, guarded⟩ with
      ⟨guard, guards, rfl, meets⟩
    exact ⟨guard, _, guards,
      listing.isLastProtected_lastProtected positioned _ _, meets, covers⟩
  · rintro ⟨guard, last, guards, isLast, meets, covers⟩
    rw [← (listing.lastProtected_eq_iff positioned _ _ _).mpr isLast] at meets
    rcases (ranges guard.handler).mpr ⟨guard, guards, rfl, meets⟩ with
      ⟨range, rangeMember, handlerMember, guarded⟩
    rcases exists_of_mapM_eq_ok assembly.guarded rangeMember with
      ⟨protection, member, found⟩
    refine ⟨protection, member, (mem_guarded_iff found _).mpr guarded, ?_⟩
    exact (mem_handlers_iff separated found _).mpr ⟨_, handlerMember, covers⟩

end Graph.Assembly

/-- The last executed row of a group. -/
structure Group.IsLastCode (group : Group) (row : Row) : Prop where
  member : row ∈ group
  code : row.isCode = true
  last : ∀ other ∈ group, other.isCode = true → other.position ≤ row.position

theorem Group.lastCode?_eq_some_iff
    {group : Group}
    (ascending : Ascending group)
    (row : Row) :
    group.lastCode? = some row ↔ group.IsLastCode row := by
  rw [Group.lastCode?, ascending.getLast?_filter_eq_some_iff]
  constructor
  · rintro ⟨member, code, last⟩
    exact ⟨member, code, last⟩
  · intro isLast
    exact ⟨isLast.member, isLast.code, isLast.last⟩

theorem Edge.mem_adjacent_iff
    {groups : List Group}
    (separated : Group.Separated groups)
    (edge : Edge) :
    edge ∈ Edge.adjacent groups ↔
      edge.target = edge.source + 1 ∧ edge.target < groups.length ∧
        ∃ group row, groups[edge.source]? = some group ∧ group.IsLastCode row ∧
          row.GoesOn := by
  rcases edge with ⟨source, target⟩
  have toNext (group : Group) (member : group ∈ groups) (index : Nat) :
      Edge.toNext? group index = some ⟨source, target⟩ ↔
        (index = source ∧ index + 1 = target) ∧
          ∃ row, group.IsLastCode row ∧ row.GoesOn := by
    have ascending := separated.ascending_of_mem member
    simp only [← Group.lastCode?_eq_some_iff ascending,
      ← Row.endsFlow_eq_false_iff]
    unfold Edge.toNext?
    cases group.lastCode? with
    | none => simp
    | some row => cases ends : row.instruction.endsFlow <;> simp [ends]
  rw [Edge.adjacent, List.mem_filterMap]
  simp only
  constructor
  · rintro ⟨⟨group, index⟩, member, next⟩
    rw [List.mem_zipIdx_iff_getElem?, List.getElem?_dropLast,
      Option.ite_none_right_eq_some] at member
    rcases member with ⟨inside, found⟩
    rcases (toNext group (List.mem_of_getElem? found) index).mp next with
      ⟨⟨rfl, rfl⟩, row, isLast, goesOn⟩
    have before : index + 1 < groups.length := by
      simp only at inside
      omega
    exact ⟨rfl, before, group, row, found, isLast, goesOn⟩
  · rintro ⟨rfl, inside, group, row, found, isLast, goesOn⟩
    refine ⟨(group, source), ?_, ?_⟩
    · rw [List.mem_zipIdx_iff_getElem?, List.getElem?_dropLast,
        Option.ite_none_right_eq_some]
      simp only at inside ⊢
      exact ⟨by omega, found⟩
    · exact (toNext group (List.mem_of_getElem? found) source).mpr
        ⟨⟨rfl, rfl⟩, row, isLast, goesOn⟩

/-! ## Rows and successors of a block -/

namespace Graph

variable {listing : Listing} {graph : Graph}

/-- The rows of the blocks. -/
def groups (graph : Graph) : List Group :=
  graph.blocks.map Block.rows

theorem getElem?_groups
    {index : Nat}
    {block : Block}
    (found : graph.blocks[index]? = some block) :
    graph.groups[index]? = some block.rows := by
  rw [groups, List.getElem?_map, found]
  rfl

theorem separated_groups
    (positioned : listing.Positioned)
    (built : Graph.build listing = .ok graph) :
    Group.Separated graph.groups := by
  rcases nonempty_assembly built with ⟨assembly⟩
  rw [groups, assembly.map_rows_blocks]
  exact assembly.separated positioned

theorem flatten_groups (built : Graph.build listing = .ok graph) :
    graph.groups.flatten = if listing.body.any Row.isCode then
      listing.body else [] := by
  rcases nonempty_assembly built with ⟨assembly⟩
  rw [groups, assembly.map_rows_blocks]
  exact assembly.flatten_groups

theorem index_eq
    (built : Graph.build listing = .ok graph)
    {index : Nat}
    {block : Block}
    (found : graph.blocks[index]? = some block) :
    block.index = index := by
  rcases nonempty_assembly built with ⟨assembly⟩
  exact (assembly.getElem?_blocks index block found).2.1

/--
What a block executes decides all its marks but those of exception handlers.
-/
theorem exists_marks_eq
    (built : Graph.build listing = .ok graph)
    {block : Block}
    (member : block ∈ graph.blocks) :
    ∃ isGuarded isHandler,
      block.marks = block.rows.marks isGuarded isHandler := by
  rcases nonempty_assembly built with ⟨assembly⟩
  rw [assembly.blocks, Layout.blocks] at member
  rcases List.mem_map.mp member with ⟨⟨rows, index⟩, -, rfl⟩
  exact ⟨_, _, rfl⟩

theorem covers_groups_iff
    {index : Nat}
    {block : Block}
    (found : graph.blocks[index]? = some block)
    (position : Nat) :
    Group.Covers graph.groups index position ↔
      (Span.ofGroup block.rows).covers position = true := by
  simp only [Group.Covers, getElem?_groups found, Option.some.injEq,
    exists_eq_left']

theorem holds_groups_iff
    {index : Nat}
    {block : Block}
    (found : graph.blocks[index]? = some block)
    (row : Row) :
    Group.Holds graph.groups index row ↔ row ∈ block.rows := by
  simp only [Group.Holds, getElem?_groups found, Option.some.injEq,
    exists_eq_left']

theorem exists_block_of_mem_flatten
    {row : Row}
    (inside : row ∈ graph.groups.flatten) :
    ∃ (index : Nat) (block : Block), graph.blocks[index]? = some block ∧
      row ∈ block.rows := by
  rcases List.mem_flatten.mp inside with ⟨group, groupMember, rowMember⟩
  rcases List.mem_map.mp groupMember with ⟨block, blockMember, rfl⟩
  rcases List.mem_iff_getElem?.mp blockMember with ⟨index, found⟩
  exact ⟨index, block, found, rowMember⟩

theorem exists_code_of_mem_blocks
    (positioned : listing.Positioned)
    (built : Graph.build listing = .ok graph)
    {block : Block}
    (member : block ∈ graph.blocks) :
    ∃ row ∈ block.rows, row.isCode = true :=
  (separated_groups positioned built).executed block.rows
    (List.mem_map_of_mem member)

theorem flatten_groups_of_code
    (built : Graph.build listing = .ok graph)
    {row : Row}
    (member : row ∈ listing.body)
    (code : row.isCode = true) :
    graph.groups.flatten = listing.body := by
  rw [flatten_groups built, if_pos (List.any_eq_true.mpr ⟨row, member, code⟩)]

theorem mem_body_of_mem_rows
    (built : Graph.build listing = .ok graph)
    {block : Block}
    (member : block ∈ graph.blocks)
    {row : Row}
    (rowMember : row ∈ block.rows) :
    row ∈ listing.body := by
  have inside : row ∈ graph.groups.flatten :=
    List.mem_flatten.mpr ⟨block.rows, List.mem_map_of_mem member, rowMember⟩
  rw [flatten_groups built] at inside
  split at inside
  · exact inside
  · exact (List.not_mem_nil inside).elim

/--
As soon as there is a block, the blocks hold all rows outside every table.
-/
theorem flatten_groups_of_mem_blocks
    (positioned : listing.Positioned)
    (built : Graph.build listing = .ok graph)
    {block : Block}
    (member : block ∈ graph.blocks) :
    graph.groups.flatten = listing.body := by
  rcases exists_code_of_mem_blocks positioned built member with
    ⟨row, rowMember, code⟩
  exact flatten_groups_of_code built
    (mem_body_of_mem_rows built member rowMember) code

/--
A row outside every table lies in the span of a block exactly if the block holds
it.
-/
theorem covers_iff_mem_rows
    (positioned : listing.Positioned)
    (built : Graph.build listing = .ok graph)
    {index : Nat}
    {block : Block}
    (found : graph.blocks[index]? = some block)
    {row : Row}
    (member : row ∈ listing.body) :
    Group.Covers graph.groups index row.position ↔ row ∈ block.rows := by
  rw [← holds_groups_iff found]
  apply (separated_groups positioned built).covers_iff_holds
  rw [flatten_groups_of_mem_blocks positioned built
    (List.mem_of_getElem? found)]
  exact member

/-- When control may pass from one block to another. -/
theorem mem_successors_iff
    (positioned : listing.Positioned)
    (built : Graph.build listing = .ok graph)
    {index : Nat}
    {block : Block}
    (found : graph.blocks[index]? = some block)
    (target : Nat) :
    target ∈ block.successors ↔
      (∃ left right cuts, listing.Leads left right cuts ∧
        Group.Covers graph.groups index left.position ∧
        Group.Covers graph.groups target right.position) ∨
      (∃ guard last, listing.HasGuard guard ∧
        listing.IsLastProtected guard.first guard.last last ∧
        Group.Meets graph.groups index guard.first.position last.position ∧
        Group.Covers graph.groups target guard.handler.position) ∨
      (target = index + 1 ∧ target < graph.blocks.length ∧
        ∃ row, block.rows.IsLastCode row ∧ row.GoesOn) := by
  rcases nonempty_assembly built with ⟨assembly⟩
  rcases assembly.getElem?_blocks index block found with ⟨group, -, successors⟩
  rw [successors, Assembly.edges, List.mem_append, List.mem_append, or_assoc,
    assembly.mem_linkEdges_iff positioned,
    assembly.mem_protectionEdges_iff positioned,
    Edge.mem_adjacent_iff (assembly.separated positioned), groups,
    assembly.map_rows_blocks, assembly.length_blocks]
  simp only [group, Option.some.injEq, exists_and_left, exists_eq_left']

end Graph

end SmaliFlow.Flow
