import Mathlib.Data.List.SplitBy
import Mathlib.Data.Prod.Basic
import SmaliFlow.ClassFile.Basic
import SmaliFlow.Proofs.Listing

/-!
# Methods that have been moved

A method can stand anywhere in a file.  When all its lines move by the same
distance, their indices and their numbers grow by that distance, and nothing
else about the method changes: not its blocks and their marks, not the way
control passes between them, not the order of discovery.  A fault names the
moved line.

The statements follow the construction of the control flow step by step.  Each
of them says that a step commutes with moving the rows it works on.
-/

namespace SmaliFlow.Flow

/-! ## Lists without repetition and lists in pieces -/

theorem beq_map
    {α β : Type}
    [BEq α]
    [LawfulBEq α]
    [BEq β]
    [LawfulBEq β]
    {move : α → β}
    (injective : Function.Injective move)
    (left right : α) :
    (move left == move right) = (left == right) := by
  rw [Bool.eq_iff_iff, beq_iff_eq, beq_iff_eq]
  exact injective.eq_iff

theorem eraseDups_map
    {α β : Type}
    [BEq α]
    [LawfulBEq α]
    [BEq β]
    [LawfulBEq β]
    {move : α → β}
    (injective : Function.Injective move)
    (values : List α) :
    (values.map move).eraseDups = values.eraseDups.map move :=
  eraseDups_map_of_mem fun _ _ _ _ same => injective same

theorem splitBy_map
    {α β : Type}
    (move : α → β)
    (related : β → β → Bool)
    (values : List α) :
    (values.map move).splitBy related =
      (values.splitBy fun left right => related (move left) (move right)).map
        (List.map move) := by
  have loop (values : List α) (last : α) (piece : List α)
      (pieces : List (List α)) :
      List.splitBy.loop related (values.map move) (move last) (piece.map move)
          (pieces.map (List.map move)) =
        (List.splitBy.loop (fun left right => related (move left) (move right))
          values last
          piece pieces).map (List.map move) := by
    induction values generalizing last piece pieces with
    | nil => simp [List.splitBy.loop]
    | cons value values ih =>
        rw [List.map_cons, List.splitBy.loop, List.splitBy.loop]
        cases related (move last) (move value) with
        | true => exact ih value (last :: piece) pieces
        | false =>
            have step := ih value [] ((last :: piece).reverse :: pieces)
            rw [List.map_cons, List.map_reverse] at step
            exact step
  cases values with
  | nil => rfl
  | cons value values => exact loop values value [] []

/-! ## What moving does -/

/-- The row of the same line, which has been moved. -/
def Row.shift (distance : Nat) (row : Row) : Row :=
  { row with id := row.id + distance, number := row.number + distance }

namespace Row

variable (distance : Nat) (row : Row)

@[simp]
theorem position_shift : (row.shift distance).position = row.position :=
  rfl

@[simp]
theorem text_shift : (row.shift distance).text = row.text :=
  rfl

@[simp]
theorem instruction_shift :
  (row.shift distance).instruction = row.instruction :=
  rfl

@[simp]
theorem kind_shift : (row.shift distance).kind = row.kind :=
  rfl

end Row

theorem Row.shift_injective (distance : Nat) :
    Function.Injective (Row.shift distance) := by
  intro left right same
  cases left
  cases right
  simpa [shift] using same

/-- A fault names the number of a line or a text. -/
def Fault.shift (distance : Nat) : Fault → Fault
  | .unresolvedLabel name => .unresolvedLabel name
  | .missingTarget number => .missingTarget (number + distance)
  | .missingTable number => .missingTable (number + distance)
  | .missingPayload line => .missingPayload line
  | .openTable line => .openTable line
  | .malformedTarget number => .malformedTarget (number + distance)
  | .reversedRange number => .reversedRange (number + distance)
  | .outsideBlocks number => .outsideBlocks (number + distance)

def Link.shift (distance : Nat) (link : Link) : Link :=
  { link with
    source := link.source.shift distance
    target := link.target.shift distance }

def Guard.shift (distance : Nat) (guard : Guard) : Guard where
  first := guard.first.shift distance
  last := guard.last.shift distance
  handler := guard.handler.shift distance

def Exit.shift (distance : Nat) (exit : Exit) : Exit where
  lastProtected := exit.lastProtected.shift distance
  continuation := exit.continuation.map (Row.shift distance)

def GuardedRange.shift (distance : Nat) (range : GuardedRange) :
    GuardedRange where
  first := range.first.shift distance
  last := range.last.shift distance
  exit := range.exit.shift distance
  handlers := range.handlers.map (Row.shift distance)

def Layout.shift (distance : Nat) (layout : Layout) : Layout where
  links := layout.links.map (Link.shift distance)
  ranges := layout.ranges.map (GuardedRange.shift distance)
  groups := layout.groups.map (List.map (Row.shift distance))

def Block.shift (distance : Nat) (block : Block) : Block :=
  { block with rows := block.rows.map (Row.shift distance) }

def Graph.shift (distance : Nat) (graph : Graph) : Graph where
  blocks := graph.blocks.map (Block.shift distance)
  ranges := graph.ranges.map (GuardedRange.shift distance)

/-! ## Outcomes -/

/-- The outcome after everything that it speaks of has been moved. -/
def moved {α β : Type} (distance : Nat) (move : α → β) :
    Except Fault α → Except Fault β
  | .ok value => .ok (move value)
  | .error fault => .error (fault.shift distance)

section Outcomes

variable {α β γ δ : Type} {distance : Nat} {move : α → γ} {moveResult : β → δ}

theorem moved_bind
    {next : α → Except Fault β}
    {nextMoved : γ → Except Fault δ}
    (natural : ∀ value,
      nextMoved (move value) = moved distance moveResult (next value))
    (outcome : Except Fault α) :
    moved distance move outcome >>= nextMoved =
      moved distance moveResult (outcome >>= next) := by
  cases outcome with
  | error fault => rfl
  | ok value => exact natural value

theorem mapM_moved
    {function : α → Except Fault β}
    {functionMoved : γ → Except Fault δ}
    (natural : ∀ value, functionMoved (move value) =
      moved distance moveResult (function value))
    (values : List α) :
    (values.map move).mapM functionMoved =
      moved distance (List.map moveResult) (values.mapM function) := by
  induction values with
  | nil => rfl
  | cons value values ih =>
      rw [List.map_cons, List.mapM_cons, List.mapM_cons, natural, ih]
      refine moved_bind ?_ _
      intro first
      refine moved_bind ?_ _
      intro rest
      rfl

theorem ite_moved
    {condition conditionMoved : Prop}
    [Decidable condition]
    [Decidable conditionMoved]
    (same : conditionMoved ↔ condition)
    {yes no : Except Fault α}
    {yesMoved noMoved : Except Fault γ}
    (left : yesMoved = moved distance move yes)
    (right : noMoved = moved distance move no) :
    (if conditionMoved then yesMoved else noMoved) =
      moved distance move (if condition then yes else no) := by
  by_cases holds : condition
  · rw [if_pos holds, if_pos (same.mpr holds), left]
  · rw [if_neg holds, if_neg (mt same.mp holds), right]

end Outcomes

/-! ## Links -/

section Links

variable (distance : Nat) (listing : Listing)

theorem Listing.body_shift :
    Listing.body (listing.map (Row.shift distance)) =
      listing.body.map (Row.shift distance) :=
  List.filter_map

theorem Listing.after_shift (row : Row) :
    Listing.after (listing.map (Row.shift distance)) (row.shift distance) =
      (listing.after row).map (Row.shift distance) :=
  List.map_drop.symm

theorem Listing.label?_shift (name : Bytes) :
    Listing.label? (listing.map (Row.shift distance)) name =
      (listing.label? name).map (Row.shift distance) :=
  List.find?_map

namespace Index

theorem resolve_shift (name : Bytes) :
    (ofListing (listing.map (Row.shift distance))).resolve name =
      moved distance (Row.shift distance)
        ((ofListing listing).resolve name) := by
  rw [resolve_ofListing, resolve_ofListing, Listing.resolve, Listing.resolve,
    Listing.label?_shift]
  cases listing.label? name <;> rfl

theorem next?_shift (row : Row) :
    (ofListing (listing.map (Row.shift distance))).next? (row.shift distance) =
      ((ofListing listing).next? row).map (Row.shift distance) := by
  rw [next?_ofListing, next?_ofListing, Listing.after_shift, List.head?_map]

theorem tableTarget_shift (row : Row) :
    (ofListing (listing.map (Row.shift distance))).tableTarget
      (row.shift distance) =
      moved distance (Row.shift distance)
        ((ofListing listing).tableTarget row) := by
  rw [tableTarget, tableTarget, Row.text_shift]
  cases SwitchTable.scanTarget? row.text with
  | none => rfl
  | some target => exact resolve_shift distance listing target.1

theorem tableTargets_shift (label : Row) :
    (ofListing (listing.map (Row.shift distance))).tableTargets
      (label.shift distance) =
      moved distance (List.map (Row.shift distance))
        ((ofListing listing).tableTargets label) := by
  have behind : ((listing.after label).map (Row.shift distance)).dropWhile
        Row.mayPrecedeTable =
      ((listing.after label).dropWhile Row.mayPrecedeTable).map
        (Row.shift distance) :=
    List.dropWhile_map
  have inside (isInside : Row → Bool)
      (same : isInside ∘ Row.shift distance = isInside)
      (rows : List Row) :
      ((rows.map (Row.shift distance)).takeWhile isInside).filter
        Row.holdsTarget =
        ((rows.takeWhile isInside).filter Row.holdsTarget).map
          (Row.shift distance) := by
    rw [List.takeWhile_map, List.filter_map, same]
    rfl
  have last (isInside : Row → Bool)
      (same : isInside ∘ Row.shift distance = isInside)
      (rows : List Row) :
      ((rows.map (Row.shift distance)).dropWhile isInside).head? =
        (rows.dropWhile isInside).head?.map (Row.shift distance) := by
    rw [List.dropWhile_map, List.head?_map, same]
  rw [tableTargets, tableTargets, listing_ofListing, listing_ofListing,
    Listing.after_shift, behind]
  cases (listing.after label).dropWhile Row.mayPrecedeTable with
  | nil => rfl
  | cons opener rows =>
      simp only [List.map_cons]
      refine ite_moved Iff.rfl ?_ rfl
      rw [inside _ rfl rows, last _ rfl rows,
        mapM_moved (tableTarget_shift distance listing)]
      refine moved_bind ?_ _
      intro targets
      cases (rows.dropWhile fun row => row.inTable &&
        !row.closesTable).head? with
      | none => rfl
      | some row =>
          refine ite_moved Iff.rfl ?_ rfl
          exact congrArg Except.ok
            (eraseDups_map (Row.shift_injective distance) targets)

theorem switchTargets_shift (name : Bytes) :
    (ofListing (listing.map (Row.shift distance))).switchTargets name =
      moved distance (List.map (Row.shift distance))
        ((ofListing listing).switchTargets name) := by
  rw [switchTargets, switchTargets, resolve_shift]
  exact moved_bind (tableTargets_shift distance listing) _

theorem jumpTarget_shift (row : Row) :
    (ofListing (listing.map (Row.shift distance))).jumpTarget
      (row.shift distance) =
      moved distance (Row.shift distance)
        ((ofListing listing).jumpTarget row) := by
  rw [jumpTarget, jumpTarget, Row.instruction_shift]
  cases row.instruction.label? with
  | none => rfl
  | some name => exact resolve_shift distance listing name

theorem rowLinks_shift (row : Row) :
    (ofListing (listing.map (Row.shift distance))).rowLinks
        (ofListing (listing.map (Row.shift distance))).switchTargets
          (row.shift distance) =
      moved distance (List.map (Link.shift distance))
        ((ofListing listing).rowLinks (ofListing listing).switchTargets
          row) := by
  rw [rowLinks, rowLinks, Row.kind_shift, Row.instruction_shift]
  split
  · rw [jumpTarget_shift]
    refine moved_bind ?_ _
    intro target
    rfl
  · rw [jumpTarget_shift, next?_shift]
    refine moved_bind ?_ _
    intro target
    cases (ofListing listing).next? row <;> rfl
  · cases row.instruction.label? with
    | none => rfl
    | some name =>
        simp only [switchTargets_shift]
        refine moved_bind ?_ _
        intro targets
        refine congrArg Except.ok ?_
        rw [List.map_map, List.map_map]
        rfl
  · rfl

theorem branchLinks_shift :
    (ofListing (listing.map (Row.shift distance))).branchLinks =
      moved distance (List.map (Link.shift distance))
        (ofListing listing).branchLinks := by
  rw [branchLinks_eq, branchLinks_eq, listing_ofListing, listing_ofListing,
    Listing.body_shift, mapM_moved (rowLinks_shift distance listing)]
  cases listing.body.mapM ((ofListing listing).rowLinks
    (ofListing listing).switchTargets) with
  | error fault => rfl
  | ok links => exact congrArg Except.ok List.map_flatten.symm

end Index

end Links

/-! ## Guarded ranges -/

section Guards

variable (distance : Nat) (listing : Listing)

theorem Listing.lastProtected_shift (first last : Row) :
    Listing.lastProtected (listing.map (Row.shift distance))
      (first.shift distance)
        (last.shift distance) =
      (listing.lastProtected first last).shift distance := by
  have executed :
      (Listing.between (listing.map (Row.shift distance)) (first.shift distance)
        (last.shift distance)).filter Row.isCode =
      ((listing.between first last).filter Row.isCode).map
        (Row.shift distance) := by
    rw [between, between, ← List.map_drop, ← List.map_take, List.filter_map]
    rfl
  rw [lastProtected, lastProtected, executed, List.getLast?_map]
  cases ((listing.between first last).filter Row.isCode).getLast? <;> rfl

theorem Listing.continuation?_shift (last : Row) :
    Listing.continuation? (listing.map (Row.shift distance))
      (last.shift distance) =
      (listing.continuation? last).map (Row.shift distance) := by
  rw [continuation?, continuation?, after_shift, List.dropWhile_map,
    List.head?_map]
  rfl

namespace Index

theorem exit_shift (first last : Row) :
    (ofListing (listing.map (Row.shift distance))).exit (first.shift distance)
        (last.shift distance) =
      ((ofListing listing).exit first last).shift distance := by
  rw [exit_ofListing, exit_ofListing, Listing.exit, Listing.exit, Exit.shift,
    Listing.lastProtected_shift, Listing.continuation?_shift]

theorem resolveGuard_shift (row : Row) (directive : CatchDirective) :
    (ofListing (listing.map (Row.shift distance))).resolveGuard
      (row.shift distance) directive =
      moved distance (Guard.shift distance)
        ((ofListing listing).resolveGuard row directive) := by
  simp only [resolveGuard, resolve_shift]
  refine moved_bind ?_ _
  intro first
  refine moved_bind ?_ _
  intro last
  refine moved_bind ?_ _
  intro handler
  exact ite_moved Iff.rfl rfl rfl

theorem guards_shift :
    (ofListing (listing.map (Row.shift distance))).guards =
      moved distance (List.map (Guard.shift distance))
        (ofListing listing).guards := by
  rw [guards, guards, listing_ofListing, listing_ofListing, List.filterMap_map]
  have directives :
      (listing.filterMap ((fun row =>
        row.instruction.guard?.map fun directive =>
        (row, directive)) ∘ Row.shift distance)) =
      (listing.filterMap fun row => row.instruction.guard?.map fun directive =>
        (row, directive)).map fun entry =>
          (entry.1.shift distance, entry.2) := by
    rw [List.map_filterMap]
    congr 1
    funext row
    rw [Option.map_map]
    rfl
  rw [directives]
  exact mapM_moved (fun entry =>
    resolveGuard_shift distance listing entry.1 entry.2) _

theorem guardedRanges_shift (guards : List Guard) :
    (ofListing (listing.map (Row.shift distance))).guardedRanges
        (guards.map (Guard.shift distance)) =
      ((ofListing listing).guardedRanges guards).map
        (GuardedRange.shift distance) := by
  have injective := Row.shift_injective distance
  have ends : ((guards.map (Guard.shift distance)).map fun guard =>
      (guard.first, guard.last)) =
      (guards.map fun guard => (guard.first, guard.last)).map
        (Prod.map (Row.shift distance) (Row.shift distance)) := by
    rw [List.map_map, List.map_map]
    rfl
  have sameRange (first last : Row) :
      ((guards.map (Guard.shift distance)).filter fun guard =>
          guard.first == first.shift distance &&
            guard.last == last.shift distance) =
        (guards.filter fun guard => guard.first == first &&
          guard.last == last).map
          (Guard.shift distance) := by
    rw [List.filter_map]
    congr 2
    funext guard
    simp only [Guard.shift, Function.comp_apply, beq_map injective]
  rw [guardedRanges, guardedRanges, ends,
    eraseDups_map (injective.prodMap injective), List.map_map, List.map_map]
  congr 1
  funext range
  simp only [Function.comp_apply, Prod.map, GuardedRange.shift, sameRange,
    exit_shift, List.map_map]
  rw [← eraseDups_map injective, List.map_map]
  rfl

end Index

theorem Guard.links_shift (guard : Guard) (exit : Exit) :
    (guard.shift distance).links (exit.shift distance) =
      (guard.links exit).map (Link.shift distance) := by
  rw [links, links, List.map_map]
  cases exit with
  | mk lastProtected continuation => cases continuation <;> rfl

end Guards

/-! ## Groups -/

section Groups

variable (distance : Nat)

theorem Listing.leaders_shift (listing : Listing) (links : List Link) :
    Listing.leaders (listing.map (Row.shift distance))
      (links.map (Link.shift distance)) =
      listing.leaders links := by
  rw [leaders, leaders, body_shift, List.filter_map, List.filter_map,
    List.map_map, List.map_map]
  rfl

theorem Listing.pieces_shift (listing : Listing) (leaders : List Nat) :
    Listing.pieces (listing.map (Row.shift distance)) leaders =
      (listing.pieces leaders).map (List.map (Row.shift distance)) := by
  rw [pieces_eq, pieces_eq, body_shift, splitBy_map]
  rfl

namespace Group

theorem join_shift (state : List Group × Group) (piece : Group) :
    join (Prod.map (List.map (List.map (Row.shift distance)))
        (List.map (Row.shift distance))
        state) (piece.map (Row.shift distance)) =
      Prod.map (List.map (List.map (Row.shift distance)))
        (List.map (Row.shift distance))
        (join state piece) := by
  rcases state with ⟨groups, waiting⟩
  have executed :
      (piece.map (Row.shift distance)).any Row.isCode = piece.any Row.isCode :=
    List.any_map
  simp only [join, Prod.map_apply, executed]
  split <;> simp

theorem close_shift (state : List Group × Group) :
    close (Prod.map (List.map (List.map (Row.shift distance)))
        (List.map (Row.shift distance))
        state) =
      (close state).map (List.map (Row.shift distance)) := by
  rcases state with ⟨groups, waiting⟩
  cases groups <;> simp [close]

theorem foldl_join_shift (pieces : List Group) (state : List Group × Group) :
    (pieces.map (List.map (Row.shift distance))).foldl join
        (Prod.map (List.map (List.map (Row.shift distance)))
          (List.map (Row.shift distance))
          state) =
      Prod.map (List.map (List.map (Row.shift distance)))
        (List.map (Row.shift distance))
        (pieces.foldl join state) := by
  induction pieces generalizing state with
  | nil => rfl
  | cons piece pieces ih =>
      rw [List.map_cons, List.foldl_cons, List.foldl_cons, join_shift, ih]

theorem ofPieces_shift (pieces : List Group) :
    ofPieces (pieces.map (List.map (Row.shift distance))) =
      (ofPieces pieces).map (List.map (Row.shift distance)) := by
  rw [ofPieces, ofPieces, ← close_shift, ← foldl_join_shift]
  rfl

theorem lastCode?_shift (group : Group) :
    lastCode? (group.map (Row.shift distance)) =
      group.lastCode?.map (Row.shift distance) := by
  rw [lastCode?, lastCode?, List.filter_map, List.getLast?_map]
  rfl

theorem marks_shift (group : Group) (isGuarded isHandler : Bool) :
    marks (group.map (Row.shift distance)) isGuarded isHandler =
      group.marks isGuarded isHandler := by
  have family (family : Family) :
      hasFamily (group.map (Row.shift distance)) family =
        group.hasFamily family :=
    List.any_map
  have dead : hasDeadCode (group.map (Row.shift distance)) =
      group.hasDeadCode := by
    rw [hasDeadCode, hasDeadCode, List.countP_map, lastCode?_shift,
      Option.map_map]
    rfl
  rw [marks, marks, family, family, family, dead]

end Group

end Groups

/-! ## Layouts and graphs -/

section Graphs

variable (distance : Nat)

theorem Layout.ofListing_shift (listing : Listing) :
    Layout.ofListing (listing.map (Row.shift distance)) =
      moved distance (Layout.shift distance) (Layout.ofListing listing) := by
  simp only [Layout.ofListing, Index.branchLinks_shift, Index.guards_shift,
    Index.exitOf_guardedRanges]
  refine moved_bind ?_ _
  intro branchLinks
  refine moved_bind ?_ _
  intro guards
  have guardLinks : ((guards.map (Guard.shift distance)).flatMap fun guard =>
        guard.links ((Index.ofListing (listing.map (Row.shift distance))).exit
          guard.first
          guard.last)) =
      (guards.flatMap fun guard =>
        guard.links ((Index.ofListing listing).exit guard.first guard.last)).map
          (Link.shift distance) := by
    rw [List.flatMap_map, List.map_flatMap]
    congr 1
    funext guard
    rw [← Guard.links_shift, ← Index.exit_shift]
    rfl
  refine congrArg Except.ok ?_
  rw [guardLinks, Index.guardedRanges_shift, ← List.map_append, groupsOf,
    Listing.leaders_shift, Listing.pieces_shift, Group.ofPieces_shift]
  rfl

theorem Span.ofGroup_shift (group : Group) :
    Span.ofGroup (group.map (Row.shift distance)) = Span.ofGroup group := by
  rw [ofGroup, ofGroup, List.head?_map, List.getLast?_map, Option.map_map,
    Option.map_map]
  rfl

theorem Layout.spans_shift (layout : Layout) :
    (layout.shift distance).spans = layout.spans := by
  rw [spans, spans, shift, List.map_map]
  congr 1
  funext group
  exact Span.ofGroup_shift distance group

theorem Owners.locate_shift (owners : Owners) (row : Row) :
    owners.locate (row.shift distance) =
      moved distance id (owners.locate row) := by
  rw [locate, locate, Row.position_shift]
  cases owners[row.position]?.join <;> rfl

theorem Edge.ofLink_shift (owners : Owners) (link : Link) :
    Edge.ofLink owners (link.shift distance) =
      moved distance id (Edge.ofLink owners link) := by
  simp only [ofLink, Link.shift, Owners.locate_shift]
  refine moved_bind ?_ _
  intro source
  refine moved_bind ?_ _
  intro target
  rfl

theorem Edge.adjacent_shift (groups : List Group) :
    Edge.adjacent (groups.map (List.map (Row.shift distance))) =
      Edge.adjacent groups := by
  have next (group : Group) (index : Nat) :
      toNext? (group.map (Row.shift distance)) index = toNext? group index := by
    rw [toNext?, toNext?, Group.lastCode?_shift]
    cases group.lastCode? <;> rfl
  rw [adjacent, adjacent, ← List.map_dropLast, List.zipIdx_map,
    List.filterMap_map]
  congr 1
  funext entry
  exact next entry.1 entry.2

theorem Protection.ofRange_shift
    (spans : List Span)
    (owners : Owners)
    (range : GuardedRange) :
    Protection.ofRange spans owners (range.shift distance) =
      moved distance id (Protection.ofRange spans owners range) := by
  have handlers :=
    mapM_moved (Owners.locate_shift distance owners) range.handlers
  simp only [ofRange, GuardedRange.shift, handlers]
  refine moved_bind ?_ _
  intro located
  rw [List.map_id]
  rfl

theorem Layout.blocks_shift
    (layout : Layout)
    (edges : List Edge)
    (protections : List Protection) :
    (layout.shift distance).blocks edges protections =
      (layout.blocks edges protections).map (Block.shift distance) := by
  simp only [blocks, shift, List.length_map, List.zipIdx_map, List.map_map]
  congr 1
  funext entry
  simp only [Function.comp_apply, Prod.map, Block.shift, Group.marks_shift]
  rfl

theorem Layout.connect_shift (layout : Layout) :
    (layout.shift distance).connect =
      moved distance (Graph.shift distance) layout.connect := by
  have owners : (layout.shift distance).owners = layout.owners := by
    rw [Layout.owners, Layout.owners, spans_shift]
  have linkEdges : (layout.shift distance).linkEdges layout.owners =
      moved distance (List.map id) (layout.linkEdges layout.owners) :=
    mapM_moved (Edge.ofLink_shift distance layout.owners) layout.links
  have protections : (layout.shift distance).protections layout.owners =
      moved distance (List.map id) (layout.protections layout.owners) := by
    rw [Layout.protections, spans_shift]
    exact mapM_moved (Protection.ofRange_shift distance layout.spans
      layout.owners) layout.ranges
  have adjacent :
      Edge.adjacent (layout.shift distance).groups =
        Edge.adjacent layout.groups :=
    Edge.adjacent_shift distance layout.groups
  simp only [connect, owners, linkEdges, protections, adjacent]
  refine moved_bind ?_ _
  intro links
  refine moved_bind ?_ _
  intro ranges
  rw [List.map_id, List.map_id, blocks_shift]
  rfl

/-- Moving the lines of a method moves its graph. -/
theorem Graph.build_shift (listing : Listing) :
    Graph.build (listing.map (Row.shift distance)) =
      moved distance (Graph.shift distance) (Graph.build listing) := by
  rw [Graph.build, Graph.build, Layout.ofListing_shift]
  exact moved_bind (Layout.connect_shift distance) _

end Graphs

end SmaliFlow.Flow

/-! ## Methods -/

namespace SmaliFlow

/-- The same line further down in a file. -/
def Line.renumber (distance : Nat) (line : Line) : Line :=
  { line with number := line.number + distance }

/-- A line with its index, both of which have been moved. -/
def IndexedLine.shift (distance : Nat) (entry : IndexedLine) : IndexedLine :=
  (entry.1 + distance, entry.2.renumber distance)

/-- The cause concerns the same method, which has been moved. -/
def Flow.MethodFault.shift (distance : Nat) (methodFault : MethodFault) :
    MethodFault :=
  { methodFault with fault := methodFault.fault.shift distance }

theorem Flow.Listing.ofLines_shift
    (distance : Nat)
    (entries : List IndexedLine) :
    ofLines (entries.map (IndexedLine.shift distance)) =
      (ofLines entries).map (Row.shift distance) := by
  have rows (state : Option TableForm) (position : Nat) :
      rowsFrom (entries.map (IndexedLine.shift distance)) state position =
        (rowsFrom entries state position).map (Row.shift distance) := by
    induction entries generalizing state position with
    | nil => rfl
    | cons entry entries ih =>
        rw [List.map_cons, rowsFrom, rowsFrom, List.map_cons, ← ih]
        rfl
  rw [ofLines_eq, ofLines_eq]
  exact rows none 0

namespace Method

/-- The same method further down in a file. -/
def shift (distance : Nat) (method : Method) : Method :=
  { method with
    lines := method.lines.map (· + distance)
    blocks := method.blocks.map (Flow.Block.shift distance)
    ranges := method.ranges.map (Flow.GuardedRange.shift distance)
    fault := method.fault.map (Flow.MethodFault.shift distance) }

theorem declare_shift (distance label : Nat) (listing : Flow.Listing) :
    declare label (listing.map (Flow.Row.shift distance)) =
      (declare label listing).shift distance := by
  simp only [declare, shift, Flow.Listing.ids, List.head?_map, Option.map_map,
    List.findSome?_map, List.countP_map, List.map_map]
  rfl

theorem build_shift
    (distance : Nat)
    (method : Method)
    (listing : Flow.Listing) :
    (method.shift distance).build (listing.map (Flow.Row.shift distance)) =
      (method.build listing).shift distance := by
  rw [build, build, Flow.Graph.build_shift]
  cases Flow.Graph.build listing <;> rfl

theorem discover_shift (distance : Nat) (method : Method) :
    (method.shift distance).discover = method.discover.shift distance := by
  have same : (method.shift distance).discovery = method.discovery := by
    rw [discovery, discovery, shift, List.map_map]
    rfl
  rw [discover, discover, same]
  simp only [shift, List.zipWith_map_left, List.map_zipWith, List.length_map]
  rfl

/-- Moving the lines of a method moves the method. -/
theorem ofLines_shift (distance label : Nat) (entries : List IndexedLine) :
    ofLines label (entries.map (IndexedLine.shift distance)) =
      (ofLines label entries).shift distance := by
  rw [ofLines, ofLines, Flow.Listing.ofLines_shift, declare_shift, build_shift,
    discover_shift]

/-- The same method as another one of its class. -/
def relabel (label : Nat) (method : Method) : Method :=
  { method with label }

theorem build_relabel (label : Nat) (method : Method) (listing : Flow.Listing) :
    (method.relabel label).build listing =
      (method.build listing).relabel label := by
  rw [build, build]
  cases Flow.Graph.build listing <;> rfl

/-- The label of a method has no influence on the rest of it. -/
theorem ofLines_relabel (label other : Nat) (entries : List IndexedLine) :
    (ofLines label entries).relabel other = ofLines other entries := by
  have declared : declare other (Flow.Listing.ofLines entries) =
      (declare label (Flow.Listing.ofLines entries)).relabel other :=
    rfl
  rw [ofLines, ofLines, declared, build_relabel]
  rfl

end Method

end SmaliFlow
