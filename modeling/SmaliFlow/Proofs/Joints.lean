import SmaliFlow.Proofs.Boundaries
import SmaliFlow.Proofs.Cutting

/-!
# Joining blocks by positions

Blocks are found by intervals.  Each group of positions gives the interval from
its first to its last position, and of several intervals that hold a position
the one added last counts.  A jump joins the blocks whose intervals hold its
ends.  A guarded range joins all blocks whose intervals it meets to the blocks
of its handlers.

No interval ends before it begins, and all blocks that are joined exist.  So
joining the blocks of a draft is never stuck, and it records the edges and the
protections of the listing.
-/

namespace SmaliFlow.Flow

/-! ## Intervals -/

/-- Intervals of positions with the blocks that they belong to. -/
abbrev Cover := List (Span × Nat)

namespace Cover

/-- Add an interval, which must not end before it begins. -/
def insert (cover : Cover) (span : Span) (block : Nat) : Checked Cover :=
  if span.first ≤ span.last then .value (cover ++ [(span, block)]) else .stuck

/--
The block of the interval that was added last of those that hold a position.
-/
def block? (cover : Cover) (position : Nat) : Option Nat :=
  (cover.filter fun entry => entry.1.covers position).getLast?.map Prod.snd

/--
The blocks whose intervals meet a given one, which must not end before it
begins.
-/
def meeting (cover : Cover) (span : Span) : Checked (List Nat) :=
  if span.first ≤ span.last then
    .value ((cover.filter fun entry => entry.1.meets span.first span.last).map
      Prod.snd)
  else
    .stuck

/-- Add the interval of a group. -/
def addGroup (cover : Cover) (entry : List Nat × Nat) : Checked Cover :=
  match entry.1.head?, entry.1.getLast? with
  | some first, some last => cover.insert { first, last } entry.2
  | _, _ => return cover

/-- The intervals of groups. -/
def ofGroups (groups : List (List Nat)) : Checked Cover :=
  groups.zipIdx.foldlM addGroup []

end Cover

/-! ## Joints -/

/--
The lists of the blocks, and which blocks are guarded and which handle
exceptions.
-/
structure Joints where
  wiring : Wiring
  guarded : Array Bool
  handlers : Array Bool

namespace Joints

/-- The given number of blocks, with nothing between them. -/
def start (count : Nat) : Joints where
  wiring := Wiring.empty count
  guarded := Array.replicate count false
  handlers := Array.replicate count false

/-- Record an edge at both its blocks. -/
def link (joints : Joints) (edge : Edge) : Checked Joints :=
  if edge.source < joints.wiring.successors.size ∧
      edge.target < joints.wiring.predecessors.size then
    .value { joints with wiring := joints.wiring.link edge }
  else
    .stuck

/-- Record an edge from a guarded block. -/
def guard (joints : Joints) (edge : Edge) : Checked Joints := do
  let joints ← joints.link edge
  let guarded ← raise joints.guarded edge.source
  return { joints with guarded }

/-- Record that a block handles exceptions. -/
def handle (joints : Joints) (block : Nat) : Checked Joints := do
  let handlers ← raise joints.handlers block
  return { joints with handlers }

end Joints

namespace Draft

/-- The block at a position. -/
def blockOf (draft : Draft) (cover : Cover) (position : Nat) : Checked Nat :=
  match cover.block? position with
  | some block => .value block
  | none => do
      let row ← draft.row position
      .fault (.outsideBlocks row.number)

/-- Join the blocks at the ends of a jump. -/
def joinJump (draft : Draft) (cover : Cover) (joints : Joints) (jump : Jump) :
    Checked Joints := do
  let source ← draft.blockOf cover jump.source
  let target ← draft.blockOf cover jump.target
  joints.link { source, target }

/-- Join guarded blocks to the block of a handler. -/
def joinHandler
    (draft : Draft)
    (cover : Cover)
    (guarded : List Nat)
    (joints : Joints)
    (handler : Nat) : Checked Joints := do
  let target ← draft.blockOf cover handler
  let joints ← (guarded.map fun source => { source, target }).foldlM
    Joints.guard joints
  joints.handle target

/-- Join the blocks of a guarded range to the blocks of its handlers. -/
def joinRange
    (draft : Draft)
    (cover : Cover)
    (joints : Joints)
    (range : GuardedRange) :
    Checked Joints := do
  let guarded ← cover.meeting
    { first := range.first.position, last := range.lastProtected.position }
  (range.handlers.map Row.position).foldlM
    (draft.joinHandler cover guarded) joints

/-- Join a block to the next one, unless it ends the flow of control. -/
def joinNext
    (draft : Draft)
    (groups : List (List Nat))
    (joints : Joints)
    (index : Nat) :
    Checked Joints := do
  let group ← .ofOption groups[index]?
  let rows ← group.mapM draft.row
  match Edge.toNext? rows index with
  | some edge => joints.link edge
  | none => return joints

/-- Join all blocks. -/
def joints
    (draft : Draft)
    (groups : List (List Nat))
    (jumps : List Jump)
    (ranges : List GuardedRange) :
    Checked Joints := do
  let cover ← Cover.ofGroups groups
  let joints ← jumps.foldlM (draft.joinJump cover) (Joints.start groups.length)
  let joints ← ranges.foldlM (draft.joinRange cover) joints
  (List.range (groups.length - 1)).foldlM (draft.joinNext groups) joints

end Draft

/-! ## Intervals of groups -/

namespace Cover

theorem foldlM_addGroup_eq
    {groups : List Group}
    (proper : ∀ group ∈ groups, group ≠ [] ∧
      (Span.ofGroup group).first ≤ (Span.ofGroup group).last)
    (cover : Cover)
    (start : Nat) :
    ((groups.map (List.map Row.position)).zipIdx start).foldlM addGroup cover =
      .value (cover ++ (groups.map Span.ofGroup).zipIdx start) := by
  induction groups generalizing cover start with
  | nil => simp
  | cons group groups ih =>
      rcases List.forall_mem_cons.mp proper with ⟨⟨nonempty, ordered⟩, proper⟩
      have added : cover.addGroup (group.map Row.position, start) =
          .value (cover ++ [(Span.ofGroup group, start)]) := by
        rw [addGroup, List.head?_map, List.getLast?_map]
        rw [Span.ofGroup, List.head?_eq_some_head nonempty,
          List.getLast?_eq_some_getLast nonempty] at ordered ⊢
        exact if_pos ordered
      rw [List.map_cons, List.zipIdx_cons, List.foldlM_cons, added,
        Checked.value_bind, ih proper, List.map_cons, List.zipIdx_cons,
        List.append_assoc, List.singleton_append]

/-- The intervals of groups are their spans. -/
theorem ofGroups_eq {groups : List Group} (separated : Group.Separated groups) :
    ofGroups (groups.map (List.map Row.position)) =
      .value (groups.map Span.ofGroup).zipIdx := by
  have proper : ∀ group ∈ groups, group ≠ [] ∧
      (Span.ofGroup group).first ≤ (Span.ofGroup group).last := by
    intro group member
    rcases separated.exists_bounds member with
      ⟨first, -, last, lastMember, span, bounds⟩
    rw [span]
    exact ⟨List.ne_nil_of_mem lastMember, (bounds last lastMember).1⟩
  exact foldlM_addGroup_eq proper [] 0

end Cover

/-! ## Recording edges and marks -/

/-- The marks of the given blocks. -/
def marksOf (count : Nat) (blocks : List Nat) : Array Bool :=
  ((List.range count).map fun block => blocks.contains block).toArray

theorem getElem?_marksOf
    {count index : Nat}
    (inside : index < count)
    (blocks : List Nat) :
    (marksOf count blocks)[index]? = some (blocks.contains index) := by
  rw [marksOf, List.getElem?_toArray, List.getElem?_map,
    List.getElem?_range inside, Option.map_some]

theorem raise_marksOf
    {count block : Nat}
    (inside : block < count)
    (blocks : List Nat) :
    raise (marksOf count blocks) block =
      .value (marksOf count (blocks ++ [block])) := by
  have size (blocks : List Nat) : (marksOf count blocks).size = count := by
    simp [marksOf]
  rw [raise_eq (by rwa [size]), Checked.value.injEq]
  apply Array.ext_getElem?
  intro index
  by_cases indexInside : index < count
  · rw [Array.getElem?_setIfInBounds, getElem?_marksOf indexInside,
      getElem?_marksOf indexInside, size]
    by_cases same : block = index
    · simp [same, indexInside]
    · simp [same, Ne.symm same]
  · rw [Array.getElem?_eq_none (by rw [Array.size_setIfInBounds, size]; omega),
      Array.getElem?_eq_none (by rw [size]; omega)]

namespace Joints

/-- What recording edges and marks gives. -/
def ofEdges (count : Nat) (edges : List Edge) (guarded handlers : List Nat) :
    Joints where
  wiring := edges.foldl Wiring.link (Wiring.empty count)
  guarded := marksOf count guarded
  handlers := marksOf count handlers

/-- What recording edges and protections gives. -/
def protect (count : Nat) (edges : List Edge) (protections : List Protection) :
    Joints :=
  ofEdges count (edges ++ protections.flatMap Protection.edges)
    ((protections.flatMap Protection.edges).map Edge.source)
    (protections.flatMap Protection.handlers)

theorem start_eq (count : Nat) : start count = ofEdges count [] [] [] := by
  have unmarked : Array.replicate count false = marksOf count [] := by
    simp [marksOf]
  rw [start, unmarked]
  rfl

theorem protect_nil (count : Nat) (edges : List Edge) :
    protect count edges [] = ofEdges count edges [] [] := by
  simp [protect]

variable {count : Nat} {edges : List Edge} {guarded handlers : List Nat}

theorem link_ofEdges
    {edge : Edge}
    (source : edge.source < count)
    (target : edge.target < count) :
    (ofEdges count edges guarded handlers).link edge =
      .value (ofEdges count (edges ++ [edge]) guarded handlers) := by
  have size (edges : List Edge) :
      (Edge.successors count edges).size = count := by
    rw [Edge.successors, Array.size_map, Edge.size_targetTable]
  have successors :
      (ofEdges count edges guarded handlers).wiring.successors.size =
        count := by
    rw [ofEdges, Wiring.foldl_link_empty]
    exact size edges
  have predecessors :
      (ofEdges count edges guarded handlers).wiring.predecessors.size =
        count := by
    rw [ofEdges, Wiring.foldl_link_empty]
    exact size (edges.map Edge.reverse)
  rw [link, if_pos (by rw [successors, predecessors]; exact ⟨source, target⟩),
    ofEdges, ofEdges, List.foldl_append]
  rfl

theorem guard_ofEdges
    {edge : Edge}
    (source : edge.source < count)
    (target : edge.target < count) :
    (ofEdges count edges guarded handlers).guard edge =
      .value (ofEdges count (edges ++ [edge])
        (guarded ++ [edge.source]) handlers) := by
  rw [guard, link_ofEdges source target, Checked.value_bind]
  simp [ofEdges, raise_marksOf source]

theorem handle_ofEdges {block : Nat} (inside : block < count) :
    (ofEdges count edges guarded handlers).handle block =
      .value (ofEdges count edges guarded (handlers ++ [block])) := by
  rw [handle, ofEdges, raise_marksOf inside]
  rfl

/-- Recording edges from guarded blocks one after the other. -/
theorem foldlM_guard_ofEdges
    {more : List Edge}
    (inside : ∀ edge ∈ more, edge.source < count ∧ edge.target < count) :
    more.foldlM guard (ofEdges count edges guarded handlers) =
      .value (ofEdges count (edges ++ more)
        (guarded ++ more.map Edge.source) handlers) := by
  induction more generalizing edges guarded with
  | nil => simp
  | cons edge more ih =>
      rcases List.forall_mem_cons.mp inside with ⟨⟨source, target⟩, inside⟩
      rw [List.foldlM_cons, guard_ofEdges source target, Checked.value_bind,
        ih inside]
      simp

end Joints

/-! ## Joining the blocks of a layout -/

theorem Listing.Leads.source_mem
    {listing : Listing}
    {source target : Row}
    {cuts : Bool}
    (leads : listing.Leads source target cuts) :
    source ∈ listing := by
  have protectedMember {guard : Guard} (guards : listing.HasGuard guard)
      (last : listing.IsLastProtected guard.first guard.last source) :
        source ∈ listing := by
    rcases last with ⟨inRange, -, -⟩ | ⟨rfl, -⟩
    · exact inRange.1
    · rcases guards with ⟨_, _, _, _, _, last, _⟩
      exact last.member
  cases leads with
  | branch member _ => exact ((listing.mem_body_iff source).mp member).1
  | leave guards last _ => exact protectedMember guards last
  | handle guards last => exact protectedMember guards last

theorem Owners.lt_of_locate
    {spans : List Span}
    {row : Row}
    {index : Nat}
    (located : (Owners.ofSpans spans).locate row = .ok index) :
    index < spans.length := by
  rw [Owners.locate, Owners.join_getElem?_ofSpans] at located
  cases found : (spans.zipIdx.filter fun entry =>
      entry.1.covers row.position).getLast? with
  | none => simp [found] at located
  | some entry =>
      rw [found] at located
      cases located
      have member := (List.mem_filter.mp (List.mem_of_getLast? found)).1
      exact List.snd_lt_of_mem_zipIdx member

namespace Draft.Reads

variable {draft : Draft} {listing : Listing}

/-- The block at the position of a row is the one that owns the row. -/
theorem blockOf_eq
    (reads : draft.Reads listing)
    (spans : List Span)
    {row : Row}
    (member : row ∈ listing) :
    draft.blockOf spans.zipIdx row.position =
      .ofExcept ((Owners.ofSpans spans).locate row) := by
  rw [blockOf, Cover.block?, Owners.locate, Owners.join_getElem?_ofSpans,
    reads.row_of_mem member]
  cases (spans.zipIdx.filter fun entry =>
    entry.1.covers row.position).getLast? <;>
    rfl

theorem joinJump_eq
    (reads : draft.Reads listing)
    (spans : List Span)
    {link : Link}
    (source : link.source ∈ listing)
    (target : link.target ∈ listing)
    (edges : List Edge)
    (guarded handlers : List Nat) :
    draft.joinJump spans.zipIdx
      (Joints.ofEdges spans.length edges guarded handlers) link.jump =
      .ofExcept ((Edge.ofLink (Owners.ofSpans spans) link).map fun edge =>
        Joints.ofEdges spans.length (edges ++ [edge]) guarded handlers) := by
  rw [joinJump, Link.jump, reads.blockOf_eq spans source,
    reads.blockOf_eq spans target, Edge.ofLink]
  cases sourceFound : (Owners.ofSpans spans).locate link.source with
  | error cause => rfl
  | ok first =>
      cases targetFound : (Owners.ofSpans spans).locate link.target with
      | error cause => rfl
      | ok second =>
          exact Joints.link_ofEdges (Owners.lt_of_locate sourceFound)
            (Owners.lt_of_locate targetFound)

/-- Joining the ends of all jumps records the edges of all links. -/
theorem foldlM_joinJump_eq
    (reads : draft.Reads listing)
    (spans : List Span)
    {links : List Link}
    (members : ∀ link ∈ links, link.source ∈ listing ∧ link.target ∈ listing) :
    (links.map Link.jump).foldlM (draft.joinJump spans.zipIdx)
      (Joints.start spans.length) =
      .ofExcept ((links.mapM (Edge.ofLink (Owners.ofSpans spans))).map
        fun edges =>
        Joints.ofEdges spans.length edges [] []) := by
  rw [Joints.start_eq]
  refine Checked.foldlM_map_eq_ofExcept (fun edges =>
    Joints.ofEdges spans.length edges [] []) (fun link member edges => ?_) []
  exact reads.joinJump_eq spans (members link member).1
    (members link member).2 edges [] []

theorem joinHandler_eq
    (reads : draft.Reads listing)
    (spans : List Span)
    {guarded : List Nat}
    (inside : ∀ source ∈ guarded, source < spans.length)
    {row : Row}
    (member : row ∈ listing)
    (edges : List Edge)
    (protections : List Protection)
    (handlers : List Nat) :
    draft.joinHandler spans.zipIdx guarded
        (Joints.protect spans.length edges (protections ++
          [⟨guarded, handlers⟩]))
        row.position =
      .ofExcept (((Owners.ofSpans spans).locate row).map fun target =>
        Joints.protect spans.length edges
          (protections ++ [⟨guarded, handlers ++ [target]⟩])) := by
  rw [joinHandler, reads.blockOf_eq spans member]
  cases found : (Owners.ofSpans spans).locate row with
  | error cause => rfl
  | ok target =>
      have targetInside := Owners.lt_of_locate found
      have edgesInside : ∀ edge ∈ guarded.map fun source =>
          ({ source, target } : Edge),
          edge.source < spans.length ∧ edge.target < spans.length := by
        intro edge edgeMember
        rcases List.mem_map.mp edgeMember with ⟨source, sourceMember, rfl⟩
        exact ⟨inside source sourceMember, targetInside⟩
      rw [Checked.ofExcept_ok, Checked.value_bind, Joints.protect,
        Joints.foldlM_guard_ofEdges edgesInside, Checked.value_bind,
        Joints.handle_ofEdges targetInside]
      simp [Except.map, Joints.protect, Protection.edges]

/--
Joining the blocks of a range to its handlers records the protection of the
range.
-/
theorem joinRange_eq
    (reads : draft.Reads listing)
    (spans : List Span)
    {range : GuardedRange}
    (ordered : range.first.position ≤ range.lastProtected.position)
    (members : ∀ row ∈ range.handlers, row ∈ listing)
    (edges : List Edge)
    (protections : List Protection) :
    draft.joinRange spans.zipIdx (Joints.protect spans.length edges protections)
      range =
      .ofExcept ((Protection.ofRange spans (Owners.ofSpans spans) range).map
        fun protection =>
        Joints.protect spans.length edges (protections ++ [protection])) := by
  have met : Cover.meeting spans.zipIdx
      { first := range.first.position, last := range.lastProtected.position } =
        .value ((spans.zipIdx.filter fun entry =>
          entry.1.meets range.first.position range.lastProtected.position).map
            Prod.snd) :=
    if_pos ordered
  rw [joinRange, met, Checked.value_bind, Protection.ofRange]
  generalize guards : ((spans.zipIdx.filter fun entry =>
    entry.1.meets range.first.position range.lastProtected.position).map
      Prod.snd) = guarded
  have inside : ∀ source ∈ guarded, source < spans.length := by
    intro source member
    rw [← guards] at member
    rcases List.mem_map.mp member with ⟨entry, entryMember, rfl⟩
    exact List.snd_lt_of_mem_zipIdx (List.mem_filter.mp entryMember).1
  have pass := Checked.foldlM_map_eq_ofExcept (fun handlers =>
      Joints.protect spans.length edges (protections ++ [⟨guarded, handlers⟩]))
    (fun row member handlers =>
      reads.joinHandler_eq spans inside (members row member) edges protections
        handlers) []
  have unhandled :
      Joints.protect spans.length edges (protections ++ [⟨guarded, []⟩]) =
        Joints.protect spans.length edges protections := by
    simp [Joints.protect, Protection.edges]
  rw [unhandled] at pass
  refine pass.trans ?_
  cases range.handlers.mapM (Owners.ofSpans spans).locate with
  | error cause => rfl
  | ok handlers =>
      rw [← guards]
      rfl

end Draft.Reads

/-! ## Guarded ranges inside a listing -/

/--
A guarded range does not end before it begins, and rows of the listing guard it.
-/
structure GuardedRange.Inside (range : GuardedRange) (listing : Listing) :
    Prop where
  ordered : range.first.position ≤ range.lastProtected.position
  handlers : ∀ row ∈ range.handlers, row ∈ listing
  guarded : range.handlers ≠ []

theorem Layout.Origin.inside
    {listing : Listing}
    {layout : Layout}
    {guards : List Guard}
    (positioned : listing.Positioned)
    (origin : Layout.Origin listing layout guards)
    {range : GuardedRange}
    (member : range ∈ layout.ranges) :
    range.Inside listing := by
  rw [origin.ranges, Index.guardedRanges_eq] at member
  rcases List.mem_map.mp member with ⟨ends, endsMember, rfl⟩
  rcases List.mem_map.mp (List.mem_eraseDups.mp endsMember) with
    ⟨guard, guardMember, rfl⟩
  have ordered :=
    Index.ordered_of_guards_eq_ok positioned origin.resolved guardMember
  have isLast :=
    Listing.isLastProtected_lastProtected positioned guard.first guard.last
  refine ⟨?_, ?_, ?_⟩
  · rw [GuardedRange.lastProtected, Index.rangeOf, Index.exit_ofListing]
    exact isLast.first_le ordered
  · intro row rowMember
    rcases List.mem_map.mp (List.mem_eraseDups.mp rowMember) with
      ⟨other, otherMember, rfl⟩
    rcases (origin.hasGuard_iff positioned other).mp
      (List.mem_filter.mp otherMember).1 with ⟨_, _, _, _, _, _, handler⟩
    exact handler.member
  · apply List.ne_nil_of_mem
    apply List.mem_eraseDups.mpr
    apply List.mem_map_of_mem
    exact List.mem_filter.mpr ⟨guardMember, by simp [Guard.ends]⟩

namespace Draft.Reads

variable {draft : Draft} {listing : Listing}

/--
Joining the blocks of all ranges to their handlers records all protections.
-/
theorem foldlM_joinRange_eq
    (reads : draft.Reads listing)
    (spans : List Span)
    {ranges : List GuardedRange}
    (inside : ∀ range ∈ ranges, range.Inside listing)
    (edges : List Edge) :
    ranges.foldlM (draft.joinRange spans.zipIdx)
        (Joints.ofEdges spans.length edges [] []) =
      .ofExcept ((ranges.mapM (Protection.ofRange spans
        (Owners.ofSpans spans))).map
        (Joints.protect spans.length edges)) := by
  have pass := Checked.foldlM_eq_ofExcept (Joints.protect spans.length edges)
    (fun range member protections => reads.joinRange_eq spans
      (inside range member).ordered (inside range member).handlers edges
        protections) []
  rwa [Joints.protect_nil] at pass

theorem joinNext_eq
    (reads : draft.Reads listing)
    {groups : List Group}
    (members : ∀ group ∈ groups, ∀ row ∈ group, row ∈ listing)
    {group : Group}
    {index : Nat}
    (found : groups[index]? = some group)
    (next : index + 1 < groups.length)
    (edges : List Edge)
    (guarded handlers : List Nat) :
    draft.joinNext (groups.map (List.map Row.position))
        (Joints.ofEdges groups.length edges guarded handlers) index =
      .value (Joints.ofEdges groups.length (edges ++
        (Edge.toNext? group index).toList) guarded
        handlers) := by
  rw [joinNext, List.getElem?_map, found, Option.map_some,
    Checked.ofOption_some, Checked.value_bind,
    reads.mapM_row (members group (List.mem_of_getElem? found)),
    Checked.value_bind]
  cases leads : Edge.toNext? group index with
  | none => simp
  | some edge =>
      have ends : edge = { source := index, target := index + 1 } := by
        rw [Edge.toNext?] at leads
        split at leads
        · split at leads
          · cases leads
          · exact (Option.some.inj leads).symm
        · cases leads
      subst ends
      exact Joints.link_ofEdges (Nat.lt_of_succ_lt next) next

/-- Joining blocks to the next ones, from the first block up to a given one. -/
theorem foldlM_joinNext_range
    (reads : draft.Reads listing)
    {groups : List Group}
    (members : ∀ group ∈ groups, ∀ row ∈ group, row ∈ listing)
    (edges : List Edge)
    (guarded handlers : List Nat)
    {count : Nat}
    (inside : count ≤ groups.length - 1) :
    (List.range count).foldlM (draft.joinNext
      (groups.map (List.map Row.position)))
        (Joints.ofEdges groups.length edges guarded handlers) =
      .value (Joints.ofEdges groups.length
        (edges ++ (groups.take count).zipIdx.filterMap fun entry =>
          Edge.toNext? entry.1 entry.2) guarded handlers) := by
  induction count with
  | zero => simp
  | succ count ih =>
      have found :=
        List.getElem?_eq_getElem (show count < groups.length by omega)
      have length : (groups.take count).length = count := by
        rw [List.length_take]
        omega
      rw [List.range_succ, List.foldlM_append, ih (by omega),
        Checked.value_bind, List.foldlM_cons,
        reads.joinNext_eq members found (by omega), Checked.value_bind,
        List.foldlM_nil, List.take_add_one, found, Option.toList_some,
        List.zipIdx_append, List.filterMap_append, List.append_assoc, length,
        Nat.zero_add]
      cases leads : Edge.toNext? groups[count] count <;> simp [leads]

/-- Joining each block to the next one records the edges between neighbours. -/
theorem foldlM_joinNext_eq
    (reads : draft.Reads listing)
    {groups : List Group}
    (members : ∀ group ∈ groups, ∀ row ∈ group, row ∈ listing)
    (edges : List Edge)
    (guarded handlers : List Nat) :
    (List.range (groups.length - 1)).foldlM
        (draft.joinNext (groups.map (List.map Row.position)))
        (Joints.ofEdges groups.length edges guarded handlers) =
      .value (Joints.ofEdges groups.length (edges ++
        Edge.adjacent groups) guarded
        handlers) := by
  rw [reads.foldlM_joinNext_range members edges guarded handlers
    (Nat.le_refl _), ← List.dropLast_eq_take]
  rfl

/-- Joining all blocks of a layout records all its edges and protections. -/
theorem joints_eq
    (reads : draft.Reads listing)
    {groups : List Group}
    (separated : Group.Separated groups)
    (members : ∀ group ∈ groups, ∀ row ∈ group, row ∈ listing)
    {links : List Link}
    (ends : ∀ link ∈ links, link.source ∈ listing ∧ link.target ∈ listing)
    {ranges : List GuardedRange}
    (inside : ∀ range ∈ ranges, range.Inside listing) :
    let spans := groups.map Span.ofGroup
    draft.joints (groups.map (List.map Row.position))
      (links.map Link.jump) ranges =
      .ofExcept (do
        let linkEdges ← links.mapM (Edge.ofLink (Owners.ofSpans spans))
        let protections ← ranges.mapM
            (Protection.ofRange spans (Owners.ofSpans spans))
        return Joints.ofEdges groups.length
          (linkEdges ++ protections.flatMap Protection.edges ++
            Edge.adjacent groups)
          ((protections.flatMap Protection.edges).map Edge.source)
          (protections.flatMap Protection.handlers)) := by
  intro spans
  have length : groups.length = spans.length := (List.length_map ..).symm
  rw [joints, Cover.ofGroups_eq separated, Checked.value_bind, List.length_map,
    length, reads.foldlM_joinJump_eq spans ends]
  cases links.mapM (Edge.ofLink (Owners.ofSpans spans)) with
  | error cause => rfl
  | ok linkEdges =>
      simp only [Except.map, Checked.ofExcept_ok, Checked.value_bind]
      rw [reads.foldlM_joinRange_eq spans inside]
      cases ranges.mapM (Protection.ofRange spans (Owners.ofSpans spans)) with
      | error cause => rfl
      | ok protections =>
          simp only [Except.map, Checked.ofExcept_ok, Checked.value_bind]
          rw [← length, Joints.protect, reads.foldlM_joinNext_eq members]
          rfl

end Draft.Reads

end SmaliFlow.Flow
