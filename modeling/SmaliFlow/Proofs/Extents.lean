import SmaliFlow.Proofs.Leaders

/-!
# How far blocks reach

Rows without an instruction belong to blocks as well.  A piece in which nothing
is executed joins what follows it, so a leader begins a block only if something
is executed between the leader before it and itself; and what stands behind the
last instruction stays with it, so something has to be executed behind the
leader too.

The statements of this module say that rows share a group exactly if no block
begins between them, and therefore which positions the span of some group
covers.  They need a layout, but no graph: the groups are known before they are
connected.
-/

namespace SmaliFlow.Flow

namespace Listing

/-- A block begins at the row, behind another block. -/
structure BeginsBlock (listing : Listing) (row : Row) : Prop where
  member : row ∈ listing.body
  leader : listing.Leader row
  /-- Something is executed before the row, with no leader in between. -/
  executedBefore : ∃ code ∈ listing.body, code.isCode = true ∧
    code.position < row.position ∧
    ∀ other ∈ listing.body, code.position < other.position →
      other.position < row.position → ¬listing.Leader other
  /-- Something is executed from the row on. -/
  executedAfter : ∃ code ∈ listing.body,
    code.isCode = true ∧ row.position ≤ code.position

/--
Both rows stand outside the tables, and no block begins behind the first, up to
the second.
-/
structure SameBlock (listing : Listing) (first second : Row) : Prop where
  firstMember : first ∈ listing.body
  secondMember : second ∈ listing.body
  unbroken : ∀ row, listing.BeginsBlock row → first.position < row.position →
    ¬row.position ≤ second.position

/--
The position lies in the span of a block: between two rows of the same block.
-/
def InBlockSpan (listing : Listing) (position : Nat) : Prop :=
  ∃ first second, listing.SameBlock first second ∧
    first.position ≤ position ∧ position ≤ second.position

end Listing

namespace Layout

variable {listing : Listing} {layout : Layout}

theorem groups_eq (laid : ofListing listing = .ok layout) :
    layout.groups = groupsOf listing layout.links := by
  rcases exists_origin laid with ⟨guards, origin⟩
  exact origin.groups

theorem separated
    (positioned : listing.Positioned)
    (laid : ofListing listing = .ok layout) :
    Group.Separated layout.groups := by
  rw [groups_eq laid]
  exact separated_groupsOf positioned _

theorem mem_leaders_iff_leader
    (positioned : listing.Positioned)
    (laid : ofListing listing = .ok layout)
    {row : Row}
    (member : row ∈ listing.body) :
    row.position ∈ listing.leaders layout.links ↔ listing.Leader row := by
  rw [Listing.mem_leaders_iff positioned laid
    ((listing.mem_body_iff row).mp member).1, Listing.cut_iff_leader positioned]

/-- If anything is executed, every row outside the tables belongs to a group. -/
theorem exists_holds
    (laid : ofListing listing = .ok layout)
    (executed : ∃ row ∈ listing.body, row.isCode = true)
    {row : Row}
    (member : row ∈ listing.body) :
    ∃ index, Group.Holds layout.groups index row := by
  apply Group.exists_holds_of_mem_flatten
  rw [groups_eq laid, flatten_groupsOf, if_pos (List.any_eq_true.mpr executed)]
  exact member

theorem mem_body_of_holds
    (laid : ofListing listing = .ok layout)
    {index : Nat}
    {row : Row}
    (holds : Group.Holds layout.groups index row) :
    row ∈ listing.body := by
  rcases holds with ⟨group, found, inside⟩
  have flat : row ∈ layout.groups.flatten :=
    List.mem_flatten_of_mem (List.mem_of_getElem? found) inside
  rw [groups_eq laid, flatten_groupsOf] at flat
  split at flat
  · exact flat
  · cases flat

/-! ## Rows of one group -/

/-- A row that shares a group with a row of known place has that place too. -/
theorem holds_of_shared
    (positioned : listing.Positioned)
    (laid : ofListing listing = .ok layout)
    {index : Nat}
    {row other : Row}
    {group : Group}
    (holds : Group.Holds layout.groups index row)
    (member : group ∈ groupsOf listing layout.links)
    (inside : row ∈ group)
    (otherInside : other ∈ group) :
    Group.Holds layout.groups index other := by
  rw [← groups_eq laid] at member
  rcases List.mem_iff_getElem?.mp member with ⟨place, found⟩
  have same :=
    (separated positioned laid).holds_unique holds ⟨group, found, inside⟩
  rw [same]
  exact ⟨group, found, otherInside⟩

/-- Rows of an executed piece stay in the group of its instruction. -/
theorem holds_of_unled
    (positioned : listing.Positioned)
    (laid : ofListing listing = .ok layout)
    {index : Nat}
    {code row : Row}
    (holds : Group.Holds layout.groups index code)
    (isCode : code.isCode = true)
    (member : row ∈ listing.body)
    (order : code.position < row.position)
    (unled : ∀ other ∈ listing.body, code.position < other.position →
      other.position ≤ row.position → ¬listing.Leader other) :
    Group.Holds layout.groups index row := by
  have uncut : ∀ other ∈ listing.body, code.position < other.position →
      other.position ≤ row.position →
        other.position ∉ listing.leaders layout.links := by
    intro other otherMember after before
    rw [mem_leaders_iff_leader positioned laid otherMember]
    exact unled other otherMember after before
  rcases (Listing.share_piece_iff positioned _
    (mem_body_of_holds laid holds) member
    order).mpr uncut with ⟨piece, pieceMember, codeInside, rowInside⟩
  rcases Group.exists_mem_ofPieces_of_executed pieceMember
    (List.any_eq_true.mpr ⟨code, codeInside, isCode⟩) with
      ⟨group, groupMember, contains⟩
  exact holds_of_shared positioned laid holds groupMember (contains codeInside)
    (contains rowInside)

/-- A leader belongs to the group of the first instruction at or behind it. -/
theorem holds_leader
    (positioned : listing.Positioned)
    (laid : ofListing listing = .ok layout)
    {index : Nat}
    {leader code : Row}
    (member : leader ∈ listing.body)
    (leads : listing.Leader leader)
    (first : listing.FirstCode leader.position code)
    (holds : Group.Holds layout.groups index code) :
    Group.Holds layout.groups index leader := by
  have isLeader := (mem_leaders_iff_leader positioned laid member).mpr leads
  rcases Listing.exists_group_of_leader positioned member isLeader first with
    ⟨group, groupMember, leaderInside, codeInside⟩
  exact holds_of_shared positioned laid holds groupMember codeInside
    leaderInside

/-- Instructions with a leader between them belong to different groups. -/
theorem index_lt_of_leader
    (positioned : listing.Positioned)
    (laid : ofListing listing = .ok layout)
    {index other : Nat}
    {first second row : Row}
    (firstHeld : Group.Holds layout.groups index first)
    (firstCode : first.isCode = true)
    (secondHeld : Group.Holds layout.groups other second)
    (secondCode : second.isCode = true)
    (member : row ∈ listing.body)
    (leads : listing.Leader row)
    (after : first.position < row.position)
    (before : row.position ≤ second.position) :
    index < other := by
  have separated := separated positioned laid
  rcases Nat.lt_trichotomy index other with less | same | greater
  · exact less
  · subst same
    rcases firstHeld with ⟨group, found, firstInside⟩
    rcases secondHeld with ⟨holder, holderFound, secondInside⟩
    rw [found, Option.some.injEq] at holderFound
    subst holderFound
    have groupMember := List.mem_of_getElem? found
    rw [groups_eq laid, groupsOf] at groupMember
    have shared := (Group.share_group_iff firstCode secondCode).mp
      ⟨group, groupMember, firstInside, secondInside⟩
    have uncut := (Listing.share_piece_iff positioned _
      (mem_body_of_holds laid ⟨group, found, firstInside⟩)
      (mem_body_of_holds laid ⟨group, found, secondInside⟩) (by omega)).mp
        shared
    exact (uncut row member after before
      ((mem_leaders_iff_leader positioned laid member).mpr leads)).elim
  · have reversed := separated.position_lt secondHeld firstHeld greater
    omega

/-- Between instructions of different groups there is a first leader. -/
theorem exists_first_leader
    (positioned : listing.Positioned)
    (laid : ofListing listing = .ok layout)
    {index other : Nat}
    {first second : Row}
    (firstHeld : Group.Holds layout.groups index first)
    (firstCode : first.isCode = true)
    (secondHeld : Group.Holds layout.groups other second)
    (order : first.position < second.position)
    (different : index ≠ other) :
    ∃ row ∈ listing.body, listing.Leader row ∧ first.position < row.position ∧
      row.position ≤ second.position ∧
      ∀ earlier ∈ listing.body, first.position < earlier.position →
        earlier.position < row.position → ¬listing.Leader earlier := by
  let accepts : Row → Bool := fun row =>
    decide (first.position < row.position) &&
      (listing.leaders layout.links).contains row.position
  have leader_iff {row : Row} (member : row ∈ listing.body) :
      accepts row = true ↔
        first.position < row.position ∧ listing.Leader row := by
    simp only [accepts, Bool.and_eq_true, decide_eq_true_eq,
      List.contains_iff_mem, mem_leaders_iff_leader positioned laid member]
  have secondMember := mem_body_of_holds laid secondHeld
  have exists_leader : ∃ row ∈ listing.body, first.position < row.position ∧
      row.position ≤ second.position ∧ listing.Leader row := by
    by_contra unled
    push Not at unled
    have moved :=
      holds_of_unled positioned laid firstHeld firstCode
        secondMember order unled
    exact different ((separated positioned laid).holds_unique moved secondHeld)
  rcases exists_leader with
    ⟨bound, boundMember, boundAfter, boundBefore, boundLeads⟩
  have found : (listing.body.find? accepts).isSome = true := by
    rw [List.find?_isSome]
    exact ⟨bound, boundMember,
      (leader_iff boundMember).mpr ⟨boundAfter, boundLeads⟩⟩
  rcases Option.isSome_iff_exists.mp found with ⟨row, isFirst⟩
  rw [positioned.ascending_body.find?_eq_some_iff] at isFirst
  rcases isFirst with ⟨member, accepted, least⟩
  rcases (leader_iff member).mp accepted with ⟨after, leads⟩
  refine ⟨row, member, leads, after, ?_, ?_⟩
  · exact (least bound boundMember
      ((leader_iff boundMember).mpr ⟨boundAfter, boundLeads⟩)).trans boundBefore
  · intro earlier earlierMember earlierAfter earlierBefore earlierLeads
    have reached := least earlier earlierMember
      ((leader_iff earlierMember).mpr ⟨earlierAfter, earlierLeads⟩)
    omega

/-! ## Groups and the rows at which blocks begin -/

/--
A row at which a block begins belongs to a later group than every row before it.
-/
theorem index_lt_of_beginsBlock
    (positioned : listing.Positioned)
    (laid : ofListing listing = .ok layout)
    {index other : Nat}
    {row opening : Row}
    (begins : listing.BeginsBlock opening)
    (rowHeld : Group.Holds layout.groups index row)
    (openingHeld : Group.Holds layout.groups other opening)
    (order : row.position < opening.position) :
    index < other := by
  have separated := separated positioned laid
  rcases begins.executedBefore with ⟨code, codeMember, isCode, before, unled⟩
  rcases begins.executedAfter with ⟨later, laterMember, laterCode, after⟩
  rcases Listing.exists_firstCode positioned laterMember laterCode after with
    ⟨target, first⟩
  have executed : ∃ row ∈ listing.body, row.isCode = true :=
    ⟨code, codeMember, isCode⟩
  rcases exists_holds laid executed codeMember with ⟨earlier, codeHeld⟩
  rcases exists_holds laid executed first.member with ⟨place, targetHeld⟩
  have same := separated.holds_unique openingHeld
    (holds_leader positioned laid begins.member begins.leader first targetHeld)
  subst same
  have step :=
    index_lt_of_leader positioned laid codeHeld isCode targetHeld first.code
      begins.member begins.leader before first.after
  -- The row stands before the instruction, or in the piece of the instruction
  -- behind it.
  have notLater : index ≤ earlier := by
    by_contra later
    have behind := separated.position_lt codeHeld rowHeld (by omega)
    have moved := holds_of_unled positioned laid codeHeld isCode
      (mem_body_of_holds laid rowHeld) behind
      (fun other otherMember otherAfter otherBefore =>
        unled other otherMember otherAfter (by omega))
    have place := separated.holds_unique rowHeld moved
    omega
  omega

/-- Between rows of different groups a block begins. -/
theorem exists_beginsBlock
    (positioned : listing.Positioned)
    (laid : ofListing listing = .ok layout)
    {index other : Nat}
    {first second : Row}
    (firstHeld : Group.Holds layout.groups index first)
    (secondHeld : Group.Holds layout.groups other second)
    (order : index < other) :
    ∃ row, listing.BeginsBlock row ∧ first.position < row.position ∧
      row.position ≤ second.position := by
  have separated := separated positioned laid
  rcases firstHeld with ⟨group, found, firstInside⟩
  rcases secondHeld with ⟨holder, holderFound, secondInside⟩
  have firstHeld : Group.Holds layout.groups index first :=
    ⟨group, found, firstInside⟩
  have secondHeld : Group.Holds layout.groups other second :=
    ⟨holder, holderFound, secondInside⟩
  have ascending := separated.ascending_of_mem (List.mem_of_getElem? found)
  rcases separated.executed group (List.mem_of_getElem? found) with
    ⟨witness, inside, isCode⟩
  have nonempty : group.filter Row.isCode ≠ [] :=
    List.ne_nil_of_mem (List.mem_filter.mpr ⟨inside, isCode⟩)
  rcases (Group.lastCode?_eq_some_iff ascending _).mp
    (List.getLast?_eq_some_getLast nonempty) with
      ⟨lastInside, lastCode, greatest⟩
  rcases separated.executed holder (List.mem_of_getElem? holderFound) with
    ⟨later, laterInside, laterCode⟩
  have lastHeld : Group.Holds layout.groups index _ :=
    ⟨group, found, lastInside⟩
  have laterHeld : Group.Holds layout.groups other later :=
    ⟨holder, holderFound, laterInside⟩
  have laterMember := mem_body_of_holds laid laterHeld
  have behind := separated.position_lt lastHeld laterHeld order
  rcases Listing.exists_firstCode positioned laterMember laterCode behind with
    ⟨target, next⟩
  rcases exists_holds laid ⟨later, laterMember, laterCode⟩ next.member with
    ⟨place, targetHeld⟩
  have different : index ≠ place := by
    rintro rfl
    rcases targetHeld with ⟨same, sameFound, targetInside⟩
    rw [found, Option.some.injEq] at sameFound
    subst sameFound
    have bounded := greatest target targetInside next.code
    have after := next.after
    omega
  rcases exists_first_leader positioned laid lastHeld lastCode targetHeld
    next.after different
    with ⟨row, member, leads, after, before, unled⟩
  have firstCode : listing.FirstCode row.position target :=
    ⟨next.member, next.code, before, fun other otherMember otherCode reached =>
      next.first other otherMember otherCode (by omega)⟩
  have rowHeld := holds_leader positioned laid member leads firstCode targetHeld
  have rowOrder : index < place := by
    rcases Nat.lt_or_gt_of_ne different with less | greater
    · exact less
    · have reversed := separated.position_lt targetHeld lastHeld greater
      omega
  refine ⟨row,
    ⟨member, leads,
    ⟨_, mem_body_of_holds laid lastHeld, lastCode, after, unled⟩,
    ⟨target, next.member, next.code, before⟩⟩, ?_, ?_⟩
  · exact separated.position_lt firstHeld rowHeld rowOrder
  · -- A row before the leader would still belong to the piece of the last
    -- instruction.
    by_contra beyond
    have secondBehind := separated.position_lt lastHeld secondHeld order
    have moved := holds_of_unled positioned laid lastHeld lastCode
      (mem_body_of_holds laid secondHeld) secondBehind
      (fun earlier earlierMember earlierAfter earlierBefore =>
        unled earlier earlierMember earlierAfter (by omega))
    have same := separated.holds_unique secondHeld moved
    omega

/--
The span of a group covers a position exactly if the position lies in the span
of a block.
-/
theorem exists_covers_iff_inBlockSpan
    (positioned : listing.Positioned)
    (laid : ofListing listing = .ok layout)
    (executed : ∃ row ∈ listing.body, row.isCode = true)
    (position : Nat) :
    (∃ index, Group.Covers layout.groups index position) ↔
      listing.InBlockSpan position := by
  have separated := separated positioned laid
  constructor
  · rintro ⟨index, group, found, covers⟩
    rcases separated.exists_bounds (List.mem_of_getElem? found) with
      ⟨first, firstInside, last, lastInside, span, -⟩
    simp only [span, Span.covers, Bool.and_eq_true, decide_eq_true_eq] at covers
    have firstHeld : Group.Holds layout.groups index first :=
      ⟨group, found, firstInside⟩
    have lastHeld : Group.Holds layout.groups index last :=
      ⟨group, found, lastInside⟩
    refine ⟨first, last,
      ⟨mem_body_of_holds laid firstHeld, mem_body_of_holds laid lastHeld, ?_⟩,
      covers⟩
    intro row begins after before
    rcases exists_holds laid executed begins.member with ⟨place, rowHeld⟩
    have order :=
      index_lt_of_beginsBlock positioned laid begins firstHeld rowHeld after
    have reversed := separated.position_lt lastHeld rowHeld order
    omega
  · rintro ⟨first, last, ⟨firstMember, lastMember, unbroken⟩, after, before⟩
    rcases exists_holds laid executed firstMember with ⟨index, firstHeld⟩
    rcases exists_holds laid executed lastMember with ⟨other, lastHeld⟩
    have same : index = other := by
      rcases Nat.lt_trichotomy index other with less | equal | greater
      · rcases exists_beginsBlock positioned laid firstHeld lastHeld less with
          ⟨row, begins, rowAfter, rowBefore⟩
        exact (unbroken row begins rowAfter rowBefore).elim
      · exact equal
      · have reversed := separated.position_lt lastHeld firstHeld greater
        omega
    subst same
    rcases separated.covers_of_holds firstHeld with ⟨group, found, coversFirst⟩
    rcases separated.covers_of_holds lastHeld with
      ⟨holder, holderFound, coversLast⟩
    rw [found, Option.some.injEq] at holderFound
    subst holderFound
    refine ⟨index, group, found, ?_⟩
    simp only [Span.covers, Bool.and_eq_true, decide_eq_true_eq]
      at coversFirst coversLast ⊢
    omega

end Layout

end SmaliFlow.Flow
