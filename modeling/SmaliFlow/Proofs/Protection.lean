import Mathlib.Data.List.Nodup
import SmaliFlow.Proofs.Graph

/-!
# Exception structure

Directives over the same two labels share one guarded range.  The ranges of a
method are its different pairs of labels in the order in which they first occur,
and the handlers of a range are those of its directives in the same order.

Which blocks a range guards is decided by spans, and a span may cover rows of
tables that belong to no block.  A range begins at a label, though, and a label
always belongs to a block.  So a block is marked as guarded exactly if one of
its own rows lies between the beginning of some range and its last protected
row.
-/

namespace SmaliFlow.Flow

/-! ## First occurrences -/

/--
The values of a list without repetition, in the order in which they first occur.
-/
structure FirstOccurrences {α : Type} [BEq α] (values distinct : List α) :
    Prop where
  mem_iff : ∀ value, value ∈ distinct ↔ value ∈ values
  ordered : distinct.Pairwise fun left right =>
    values.idxOf left < values.idxOf right

section FirstOccurrences

variable {α β : Type} [BEq α] [LawfulBEq α] [BEq β] [LawfulBEq β]

/--
Taking values out does not change which of two remaining ones occurs first.
-/
theorem idxOf_lt_of_filter
    {keep : α → Bool}
    {left right : α}
    (kept : keep left = true)
    (keptRight : keep right = true)
    {values : List α}
    (before : (values.filter keep).idxOf left <
      (values.filter keep).idxOf right) :
    values.idxOf left < values.idxOf right := by
  induction values with
  | nil => simp at before
  | cons value values ih =>
      cases keeps : keep value with
      | true =>
          rw [List.filter_cons_of_pos keeps] at before
          by_cases isRight : value = right
          · subst isRight
            simp at before
          · by_cases isLeft : value = left
            · subst isLeft
              rw [List.idxOf_cons_ne _ isRight]
              simp
            · rw [List.idxOf_cons_ne _ isLeft, List.idxOf_cons_ne _ isRight]
                at before ⊢
              exact Nat.succ_lt_succ (ih (Nat.lt_of_succ_lt_succ before))
      | false =>
          rw [List.filter_cons_of_neg (by simp [keeps])] at before
          have notLeft : value ≠ left := by
            rintro rfl
            simp [kept] at keeps
          have notRight : value ≠ right := by
            rintro rfl
            simp [keptRight] at keeps
          rw [List.idxOf_cons_ne _ notLeft, List.idxOf_cons_ne _ notRight]
          exact Nat.succ_lt_succ (ih before)

theorem firstOccurrences_eraseDups (values : List α) :
    FirstOccurrences values values.eraseDups := by
  refine ⟨fun value => List.mem_eraseDups, ?_⟩
  induction length : values.length using Nat.strongRecOn
      generalizing values with
  | ind count ih =>
      cases values with
      | nil => exact List.Pairwise.nil
      | cons value values =>
          let keep (other : α) : Bool := !other == value
          have shorter : (values.filter keep).length < count := by
            rw [← length, List.length_cons]
            exact Nat.lt_succ_of_le (List.length_filter_le _ _)
          have kept {other : α}
              (member : other ∈ (values.filter keep).eraseDups) :
              keep other = true :=
            (List.mem_filter.mp (List.mem_eraseDups.mp member)).2
          have different {other : α}
              (member : other ∈ (values.filter keep).eraseDups) :
              value ≠ other := by
            rintro rfl
            simpa [keep] using kept member
          rw [List.eraseDups_cons, List.pairwise_cons]
          constructor
          · intro other member
            rw [List.idxOf_cons_ne _ (different member)]
            simp
          · refine List.Pairwise.imp_of_mem ?_ (ih _ shorter _ rfl)
            intro left right leftMember rightMember before
            rw [List.idxOf_cons_ne _ (different leftMember),
              List.idxOf_cons_ne _ (different rightMember)]
            exact Nat.succ_lt_succ (idxOf_lt_of_filter (kept leftMember)
              (kept rightMember) before)

theorem idxOf_map
    {view : α → β}
    {values : List α}
    {value : α}
    (injective : ∀ other ∈ values, view other = view value → other = value) :
    (values.map view).idxOf (view value) = values.idxOf value := by
  induction values with
  | nil => rfl
  | cons first values ih =>
      rw [List.forall_mem_cons] at injective
      rw [List.map_cons]
      by_cases same : first = value
      · subst same
        simp
      · rw [List.idxOf_cons_ne _ same,
          List.idxOf_cons_ne _ fun equal =>
            same (injective.1 equal), ih injective.2]

/-- A view that tells the values apart keeps their order. -/
theorem FirstOccurrences.map
    {values distinct : List α}
    (occurrences : FirstOccurrences values distinct)
    {view : α → β}
    (injective : ∀ left ∈ values, ∀ right ∈ values,
      view left = view right → left = right) :
    FirstOccurrences (values.map view) (distinct.map view) := by
  constructor
  · intro value
    simp only [List.mem_map, occurrences.mem_iff]
  · rw [List.pairwise_map]
    refine List.Pairwise.imp_of_mem ?_ occurrences.ordered
    intro left right leftMember rightMember before
    rw [occurrences.mem_iff] at leftMember rightMember
    rwa [idxOf_map fun other member => injective other member left leftMember,
      idxOf_map fun other member => injective other member right rightMember]

end FirstOccurrences

theorem FirstOccurrences.nodup
    {α : Type}
    [BEq α]
    {values distinct : List α}
    (occurrences : FirstOccurrences values distinct) :
    distinct.Nodup := by
  apply occurrences.ordered.imp
  rintro left right before rfl
  exact Nat.lt_irrefl _ before

/-! ## Directives -/

/-- The positions of the labels between which a directive guards the rows. -/
def Guard.bounds (guard : Guard) : Nat × Nat :=
  (guard.first.position, guard.last.position)

/-- The positions of the labels at both ends of a range. -/
def GuardedRange.bounds (range : GuardedRange) : Nat × Nat :=
  (range.first.position, range.last.position)

namespace Listing

/-- The directives of a method in order. -/
def directives (listing : Listing) : List CatchDirective :=
  listing.filterMap fun row => row.instruction.guard?

/-- The labels of a directive resolve to the rows of a guard. -/
structure Denotes
    (listing : Listing)
    (directive : CatchDirective)
    (guard : Guard) :
    Prop where
  first : listing.Resolves directive.first guard.first
  last : listing.Resolves directive.last guard.last
  handler : listing.Resolves directive.handler guard.handler

/-- Labels on the same line of the class are the same row. -/
theorem Resolves.eq_of_id_eq
    {lines : Array Line}
    {ids : List Nat}
    {listing : Listing}
    (listed : ofIds? lines ids = some listing)
    {name other : Bytes}
    {left right : Row}
    (leftResolves : listing.Resolves name left)
    (rightResolves : listing.Resolves other right)
    (same : left.id = right.id) :
    left = right := by
  rcases exists_instruction_of_ofIds? listed leftResolves.member with
    ⟨line, found, leftReads⟩
  rcases exists_instruction_of_ofIds? listed rightResolves.member with
    ⟨otherLine, otherFound, rightReads⟩
  rw [same, otherFound, Option.some.injEq] at found
  subst found
  -- The line defines one name only, and a name resolves to its first row.
  have names := leftResolves.carries.2
  rw [leftReads, ← rightReads, rightResolves.carries.2] at names
  cases names
  exact leftResolves.unique (positioned_of_ofIds? listed) rightResolves

end Listing

namespace Index

variable {listing : Listing} {guards : List Guard}

/--
The guards of a method are its directives with their labels resolved, in order.
-/
theorem forall₂_denotes
    (positioned : listing.Positioned)
    (resolved : (ofListing listing).guards = .ok guards) :
    List.Forall₂ listing.Denotes listing.directives guards := by
  have directives : listing.directives =
      (listing.filterMap fun row =>
        row.instruction.guard?.map fun directive => (row, directive)).map
          Prod.snd := by
    rw [Listing.directives, List.map_filterMap]
    congr 1
    funext row
    cases row.instruction.guard? <;> rfl
  rw [Index.guards, listing_ofListing, mapM_eq_ok_iff] at resolved
  rw [directives, List.forall₂_map_left_iff]
  refine resolved.imp fun entry guard found => ?_
  rcases (resolveGuard_eq_ok_iff positioned entry.1 entry.2 guard).mp found with
    ⟨⟨first, last, handler⟩, -⟩
  exact ⟨first, last, handler⟩

/-- What a range has been made from. -/
theorem exists_guard_of_mem_guardedRanges
    {range : GuardedRange}
    (member : range ∈ (ofListing listing).guardedRanges guards) :
    (∃ guard ∈ guards, guard.first = range.first ∧ guard.last = range.last) ∧
      range.lastProtected = listing.lastProtected range.first range.last ∧
      range.handlers = ((guards.filter fun guard =>
        guard.first == range.first && guard.last == range.last).map
          Guard.handler).eraseDups := by
  rcases List.mem_map.mp member with ⟨⟨first, last⟩, pairMember, rfl⟩
  rw [List.mem_eraseDups, List.mem_map] at pairMember
  rcases pairMember with ⟨guard, guardMember, pair⟩
  rw [Prod.mk.injEq] at pair
  exact ⟨⟨guard, guardMember, pair⟩,
    congrArg Exit.lastProtected (exit_ofListing listing first last), rfl⟩

end Index

theorem Listing.HasGuard.bounds_mem_body
    {listing : Listing}
    {guard : Guard}
    (guards : listing.HasGuard guard) :
    guard.first ∈ listing.body ∧ guard.last ∈ listing.body := by
  rcases guards with ⟨row, -, directive, -, first, last, -⟩
  exact ⟨first.mem_body, last.mem_body⟩

/-! ## Guarded ranges -/

/--
A range stands for all directives with its bounds.  It lists their handlers, and
it is left at its last protected row.
-/
structure GuardedRange.Merges
    (range : GuardedRange)
    (listing : Listing)
    (guards : List Guard) : Prop where
  first_mem : range.first ∈ listing.body
  last_mem : range.last ∈ listing.body
  handlers_mem : ∀ handler ∈ range.handlers, handler ∈ listing.body
  handlers_ne_nil : range.handlers ≠ []
  handlers : FirstOccurrences
    (((guards.filter fun guard => guard.bounds = range.bounds).map
      Guard.handler).map
      Row.position)
    (range.handlers.map Row.position)
  lines : (range.handlers.map Row.id).Nodup
  isLast : listing.IsLastProtected range.first range.last range.lastProtected
  first_le : range.first.position ≤ range.lastProtected.position
  le_last : range.lastProtected.position ≤ range.last.position

namespace Layout.Origin

variable {lines : Array Line} {ids : List Nat} {listing : Listing}
  {layout : Layout}
  {guards : List Guard}

/--
The ranges are the different bounds of the directives, in the order of the
directives.
-/
theorem firstOccurrences_bounds
    (positioned : listing.Positioned)
    (origin : Origin listing layout guards) :
    FirstOccurrences (guards.map Guard.bounds)
      (layout.ranges.map GuardedRange.bounds) := by
  let pair (guard : Guard) : Row × Row := (guard.first, guard.last)
  let view (rows : Row × Row) : Nat × Nat := (rows.1.position, rows.2.position)
  have ranges : layout.ranges.map GuardedRange.bounds =
      (guards.map pair).eraseDups.map view := by
    rw [origin.ranges, Index.guardedRanges, List.map_map]
    rfl
  have bounds : guards.map Guard.bounds = (guards.map pair).map view := by
    rw [List.map_map]
    rfl
  have inListing (rows : Row × Row) (member : rows ∈ guards.map pair) :
      rows.1 ∈ listing ∧ rows.2 ∈ listing := by
    rcases List.mem_map.mp member with ⟨guard, guardMember, rfl⟩
    have mem_body :=
      ((origin.hasGuard_iff positioned guard).mp guardMember).bounds_mem_body
    simp only [Listing.mem_body_iff] at mem_body
    exact ⟨mem_body.1.1, mem_body.2.1⟩
  rw [ranges, bounds]
  apply (firstOccurrences_eraseDups _).map
  intro left leftMember right rightMember same
  rw [Prod.mk.injEq] at same
  exact Prod.ext
    (positioned.eq_of_position_eq (inListing left leftMember).1
      (inListing right rightMember).1
      same.1)
    (positioned.eq_of_position_eq (inListing left leftMember).2
      (inListing right rightMember).2
      same.2)

/-- A range begins and ends at labels that some directive names. -/
theorem exists_guard
    (origin : Origin listing layout guards)
    {range : GuardedRange}
    (member : range ∈ layout.ranges) :
    ∃ guard ∈ guards, guard.first = range.first ∧ guard.last = range.last := by
  rw [origin.ranges] at member
  exact (Index.exists_guard_of_mem_guardedRanges member).1

theorem bounds_mem_body
    (positioned : listing.Positioned)
    (origin : Origin listing layout guards)
    {range : GuardedRange}
    (member : range ∈ layout.ranges) :
    range.first ∈ listing.body ∧ range.last ∈ listing.body := by
  rcases origin.exists_guard member with ⟨guard, guardMember, first, last⟩
  rw [← first, ← last]
  exact ((origin.hasGuard_iff positioned guard).mp guardMember).bounds_mem_body

/-- The directives of a range are those with its bounds. -/
theorem handlers_eq
    (positioned : listing.Positioned)
    (origin : Origin listing layout guards)
    {range : GuardedRange}
    (member : range ∈ layout.ranges) :
    range.handlers = ((guards.filter fun guard =>
      guard.bounds = range.bounds).map Guard.handler).eraseDups := by
  have range_mem := origin.bounds_mem_body positioned member
  rw [origin.ranges] at member
  rw [(Index.exists_guard_of_mem_guardedRanges member).2.2]
  congr 2
  apply List.filter_congr
  intro guard guardMember
  have guard_mem :=
    ((origin.hasGuard_iff positioned guard).mp guardMember).bounds_mem_body
  simp only [Listing.mem_body_iff] at range_mem guard_mem
  rw [Bool.eq_iff_iff, Bool.and_eq_true, beq_iff_eq, beq_iff_eq,
    decide_eq_true_eq, Guard.bounds, GuardedRange.bounds, Prod.mk.injEq]
  constructor
  · rintro ⟨first, last⟩
    rw [first, last]
    exact ⟨rfl, rfl⟩
  · rintro ⟨first, last⟩
    exact ⟨positioned.eq_of_position_eq guard_mem.1.1 range_mem.1.1 first,
      positioned.eq_of_position_eq guard_mem.2.1 range_mem.2.1 last⟩

theorem exists_resolves_handler
    (positioned : listing.Positioned)
    (origin : Origin listing layout guards)
    {range : GuardedRange}
    {handler : Row}
    (member : handler ∈ (guards.filter fun guard =>
      guard.bounds = range.bounds).map Guard.handler) :
    ∃ name, listing.Resolves name handler := by
  rcases List.mem_map.mp member with ⟨guard, guardMember, rfl⟩
  have guards :=
    (origin.hasGuard_iff positioned guard).mp (List.mem_filter.mp guardMember).1
  rcases guards with ⟨_, -, directive, -, -, -, resolves⟩
  exact ⟨directive.handler, resolves⟩

/-- The ranges lose no handler of a directive. -/
theorem exists_mem_handlers_iff
    (origin : Origin listing layout guards)
    (handler : Row) :
    (∃ range ∈ layout.ranges, handler ∈ range.handlers) ↔
      ∃ guard ∈ guards, guard.handler = handler := by
  have unbounded :=
    @Index.exists_mem_guardedRanges_iff listing guards handler fun _ _ => True
  simpa only [and_true, ← origin.ranges] using unbounded

/-- Every range stands for the directives with its bounds. -/
theorem merges
    (listed : Listing.ofIds? lines ids = some listing)
    (origin : Origin listing layout guards)
    {range : GuardedRange}
    (member : range ∈ layout.ranges) :
    range.Merges listing guards := by
  have positioned := Listing.positioned_of_ofIds? listed
  rcases origin.exists_guard member with ⟨guard, guardMember, first, last⟩
  have bounds_mem := origin.bounds_mem_body positioned member
  have ordered :=
    Index.ordered_of_guards_eq_ok positioned origin.resolved guardMember
  rw [first, last] at ordered
  have occurrences := firstOccurrences_eraseDups
    ((guards.filter fun guard => guard.bounds = range.bounds).map Guard.handler)
  rw [← origin.handlers_eq positioned member] at occurrences
  have resolves {handler : Row} (handlerMember : handler ∈ range.handlers) :
      ∃ name, listing.Resolves name handler :=
    origin.exists_resolves_handler positioned
      ((occurrences.mem_iff handler).mp handlerMember)
  have isLast :
      listing.IsLastProtected range.first range.last range.lastProtected := by
    rw [← Listing.lastProtected_eq_iff positioned]
    rw [origin.ranges] at member
    exact (Index.exists_guard_of_mem_guardedRanges member).2.1.symm
  refine ⟨bounds_mem.1, bounds_mem.2, ?_, ?_, ?_, ?_, isLast,
    isLast.first_le ordered, ?_⟩
  · intro handler handlerMember
    rcases resolves handlerMember with ⟨_, resolved⟩
    exact resolved.mem_body
  · apply List.ne_nil_of_mem
    apply (occurrences.mem_iff guard.handler).mpr
    apply List.mem_map_of_mem
    rw [List.mem_filter, decide_eq_true_eq, Guard.bounds, first, last]
    exact ⟨guardMember, rfl⟩
  · apply occurrences.map
    intro left leftMember right rightMember
    rcases origin.exists_resolves_handler positioned leftMember with
      ⟨_, leftResolves⟩
    rcases origin.exists_resolves_handler positioned rightMember with
      ⟨_, rightResolves⟩
    exact positioned.eq_of_position_eq leftResolves.member rightResolves.member
  · apply occurrences.nodup.map_on
    intro left leftMember right rightMember
    rcases resolves leftMember with ⟨_, leftResolves⟩
    rcases resolves rightMember with ⟨_, rightResolves⟩
    exact leftResolves.eq_of_id_eq listed rightResolves
  · rcases isLast with ⟨inRange, -, -⟩ | ⟨isEnd, -⟩
    · exact inRange.2.2
    · rw [isEnd]

end Layout.Origin

/-! ## Marks of blocks -/

/-- The rows of a group and a range that begins at a row of some group. -/
theorem Group.Separated.meets_iff_exists_row
    {groups : List Group}
    (separated : Group.Separated groups)
    {index : Nat}
    {group : Group}
    (found : groups[index]? = some group)
    {first : Row}
    (member : first ∈ groups.flatten)
    {last : Nat}
    (ordered : first.position ≤ last) :
    Group.Meets groups index first.position last ↔
      ∃ row ∈ group, first.position ≤ row.position ∧ row.position ≤ last := by
  rcases separated.exists_bounds (List.mem_of_getElem? found) with
    ⟨least, leastMember, greatest, greatestMember, span, bounds⟩
  have meets : Group.Meets groups index first.position last ↔
      least.position ≤ last ∧ first.position ≤ greatest.position := by
    simp only [Group.Meets, found, Option.some.injEq, exists_eq_left', span,
      Span.meets, Bool.and_eq_true, decide_eq_true_eq]
  rw [meets]
  constructor
  · rintro ⟨beginsBefore, endsBehind⟩
    by_cases inside : first.position ≤ least.position
    · exact ⟨least, leastMember, inside, beginsBefore⟩
    · -- The range begins within the span, and the row it begins with is in no
      -- other group.
      have covers : Group.Covers groups index first.position := by
        refine ⟨group, found, ?_⟩
        simp only [span, Span.covers, Bool.and_eq_true, decide_eq_true_eq]
        omega
      rcases (separated.covers_iff_holds member index).mp covers with
        ⟨other, otherFound, holds⟩
      rw [found, Option.some.injEq] at otherFound
      subst otherFound
      exact ⟨first, holds, Nat.le_refl _, ordered⟩
  · rintro ⟨row, rowMember, after, before⟩
    have within := bounds row rowMember
    omega

namespace Graph

namespace Assembly

variable {listing : Listing} {graph : Graph}

/-- The marks of exception handlers come from the protections. -/
theorem marks_iff_protections
    (assembly : Assembly listing graph)
    {index : Nat}
    {block : Block}
    (found : graph.blocks[index]? = some block) :
    (block.marks.isGuarded = true ↔
      ∃ protection ∈ assembly.protections, index ∈ protection.guarded) ∧
    (block.marks.isHandler = true ↔
      ∃ protection ∈ assembly.protections, index ∈ protection.handlers) := by
  rw [assembly.blocks, Layout.blocks, List.getElem?_map, Option.map_eq_some_iff]
    at found
  rcases found with ⟨⟨rows, place⟩, zipped, rfl⟩
  rw [List.getElem?_zipIdx, Option.map_eq_some_iff] at zipped
  rcases zipped with ⟨group, -, equal⟩
  rw [Prod.mk.injEq, Nat.zero_add] at equal
  rcases equal with ⟨rfl, rfl⟩
  simp only [Group.marks, Std.TreeSet.contains_ofList, List.contains_iff_mem,
    List.mem_flatMap, and_self]

theorem isGuarded_iff
    (assembly : Assembly listing graph)
    {index : Nat}
    {block : Block}
    (found : graph.blocks[index]? = some block) :
    block.marks.isGuarded = true ↔
      ∃ range ∈ graph.ranges,
        Group.Meets assembly.layout.groups index range.first.position
        range.lastProtected.position := by
  rw [(assembly.marks_iff_protections found).1, assembly.ranges]
  constructor
  · rintro ⟨protection, member, guarded⟩
    rcases (mem_iff_of_mapM_eq_ok assembly.guarded protection).mp member with
      ⟨range, rangeMember, made⟩
    exact ⟨range, rangeMember, (mem_guarded_iff made index).mp guarded⟩
  · rintro ⟨range, rangeMember, meets⟩
    rcases exists_of_mapM_eq_ok assembly.guarded rangeMember with
      ⟨protection, member, made⟩
    exact ⟨protection, member, (mem_guarded_iff made index).mpr meets⟩

theorem isHandler_iff
    (assembly : Assembly listing graph)
    (positioned : listing.Positioned)
    {index : Nat}
    {block : Block}
    (found : graph.blocks[index]? = some block) :
    block.marks.isHandler = true ↔
      ∃ range ∈ graph.ranges, ∃ handler ∈ range.handlers,
        Group.Covers assembly.layout.groups index handler.position := by
  have separated := assembly.separated positioned
  rw [(assembly.marks_iff_protections found).2, assembly.ranges]
  constructor
  · rintro ⟨protection, member, handles⟩
    rcases (mem_iff_of_mapM_eq_ok assembly.guarded protection).mp member with
      ⟨range, rangeMember, made⟩
    exact ⟨range, rangeMember,
      (mem_handlers_iff separated made index).mp handles⟩
  · rintro ⟨range, rangeMember, handles⟩
    rcases exists_of_mapM_eq_ok assembly.guarded rangeMember with
      ⟨protection, member, made⟩
    exact ⟨protection, member,
      (mem_handlers_iff separated made index).mpr handles⟩

/-- A block is guarded if one of its own rows is. -/
theorem isGuarded_iff_exists_row
    (assembly : Assembly listing graph)
    (positioned : listing.Positioned)
    (built : Graph.build listing = .ok graph)
    {guards : List Guard}
    (merges : ∀ range ∈ graph.ranges, range.Merges listing guards)
    {block : Block}
    (member : block ∈ graph.blocks) :
    block.marks.isGuarded = true ↔
      ∃ range ∈ graph.ranges, ∃ row ∈ block.rows,
        range.first.position ≤ row.position ∧
          row.position ≤ range.lastProtected.position := by
  rcases List.mem_iff_getElem?.mp member with ⟨index, found⟩
  rw [assembly.isGuarded_iff found, ← assembly.map_rows_blocks]
  refine exists_congr fun range => and_congr_right fun rangeMember => ?_
  have merged := merges range rangeMember
  apply (separated_groups positioned built).meets_iff_exists_row
    (getElem?_groups found) _
    merged.first_le
  rw [flatten_groups_of_mem_blocks positioned built member]
  exact merged.first_mem

/-- A block is a handler if a directive names one of its own rows. -/
theorem isHandler_iff_exists_guard
    (assembly : Assembly listing graph)
    (positioned : listing.Positioned)
    (built : Graph.build listing = .ok graph)
    {guards : List Guard}
    (origin : Layout.Origin listing assembly.layout guards)
    {block : Block}
    (member : block ∈ graph.blocks) :
    block.marks.isHandler = true ↔ ∃ guard ∈ guards,
      guard.handler ∈ block.rows := by
  rcases List.mem_iff_getElem?.mp member with ⟨index, found⟩
  have mem_rows {guard : Guard} (guardMember : guard ∈ guards) :
      Group.Covers graph.groups index guard.handler.position ↔
        guard.handler ∈ block.rows :=
    covers_iff_mem_rows positioned built found
      ((origin.hasGuard_iff positioned guard).mp guardMember).handler_mem_body
  rw [assembly.isHandler_iff positioned found, ← assembly.map_rows_blocks,
    assembly.ranges]
  constructor
  · rintro ⟨range, rangeMember, handler, handles, covers⟩
    rcases (origin.exists_mem_handlers_iff handler).mp
        ⟨range, rangeMember, handles⟩ with
      ⟨guard, guardMember, rfl⟩
    exact ⟨guard, guardMember, (mem_rows guardMember).mp covers⟩
  · rintro ⟨guard, guardMember, holds⟩
    rcases (origin.exists_mem_handlers_iff guard.handler).mpr
        ⟨guard, guardMember, rfl⟩ with
      ⟨range, rangeMember, handles⟩
    exact ⟨range, rangeMember, guard.handler, handles,
      (mem_rows guardMember).mpr holds⟩

end Assembly

variable {lines : Array Line} {ids : List Nat} {listing : Listing}
  {graph : Graph}

/--
The ranges of a method merge its directives.  A block is marked as guarded
exactly if one of its rows lies in a range, up to the last protected row, and as
a handler exactly if it holds the handler of some directive.
-/
theorem protection_follows_directives
    (listed : Listing.ofIds? lines ids = some listing)
    (built : Graph.build listing = .ok graph) :
    ∃ guards : List Guard,
      List.Forall₂ listing.Denotes listing.directives guards ∧
      FirstOccurrences (guards.map Guard.bounds)
        (graph.ranges.map GuardedRange.bounds) ∧
      (∀ range ∈ graph.ranges, range.Merges listing guards) ∧
      ∀ block ∈ graph.blocks,
        (block.marks.isGuarded = true ↔
          ∃ range ∈ graph.ranges, ∃ row ∈ block.rows,
            range.first.position ≤ row.position ∧
              row.position ≤ range.lastProtected.position) ∧
        (block.marks.isHandler = true ↔ ∃ guard ∈ guards,
          guard.handler ∈ block.rows) := by
  have positioned := Listing.positioned_of_ofIds? listed
  rcases nonempty_assembly built with ⟨assembly⟩
  rcases Layout.exists_origin assembly.laid with ⟨guards, origin⟩
  have merges : ∀ range ∈ graph.ranges, range.Merges listing guards := by
    intro range member
    rw [assembly.ranges] at member
    exact origin.merges listed member
  refine ⟨guards, Index.forall₂_denotes positioned origin.resolved, ?_, merges,
    ?_⟩
  · rw [assembly.ranges]
    exact origin.firstOccurrences_bounds positioned
  · intro block member
    exact ⟨assembly.isGuarded_iff_exists_row positioned built merges member,
      assembly.isHandler_iff_exists_guard positioned built origin member⟩

/--
A method with an inner range, which three directives share, and an outer range
that holds it together with a table.
-/
def nestedRanges : Array Line :=
  Line.ofTexts
    [".method public a()V", ":outer", ":inner", "nop", ":inner_end",
      ".catch LX; \x7b:inner .. :inner_end\x7d :second", "if-eqz v0, :done",
      ".packed-switch 0x0", ".end packed-switch", "nop", ":outer_end",
      ".catch LX; \x7b:outer .. :outer_end\x7d :first",
      ".catch LY; \x7b:inner .. :inner_end\x7d :second",
      ".catchall \x7b:inner .. :inner_end\x7d :first", "goto :done", ":first",
      "nop", ":second", "throw v0", ":done", "return-void", ".end method"]

/--
Its ranges have two different pairs of bounds, the inner one first, with the
handlers in the order of the directives.  The block around the table is guarded,
the one with the goto is not.
-/
theorem protection_of_nestedRanges :
    ∃ listing graph guards around goto,
      Listing.ofIds? nestedRanges (List.range 22) = some listing ∧
      Graph.build listing = .ok graph ∧
      List.Forall₂ listing.Denotes listing.directives guards ∧
      FirstOccurrences (guards.map Guard.bounds) [(2, 4), (1, 10)] ∧
      (graph.ranges.map fun range => range.handlers.map Row.position) =
        [[17, 15], [15]] ∧
      (∀ range ∈ graph.ranges, range.Merges listing guards) ∧
      graph.blocks[1]? = some around ∧ graph.blocks[2]? = some goto ∧
      (∃ range ∈ graph.ranges, ∃ row ∈ around.rows,
        range.first.position ≤ row.position ∧
          row.position ≤ range.lastProtected.position) ∧
      ¬∃ range ∈ graph.ranges, ∃ row ∈ goto.rows,
        range.first.position ≤ row.position ∧
          row.position ≤ range.lastProtected.position := by
  have run :
      ((Graph.ofIds? nestedRanges (List.range 22)).bind fun graph =>
        graph.blocks[1]?.bind fun around => graph.blocks[2]?.map fun goto =>
          (around.marks.isGuarded, goto.marks.isGuarded,
            graph.ranges.map GuardedRange.bounds,
            graph.ranges.map fun range => range.handlers.map Row.position)) =
        some (true, false, [(2, 4), (1, 10)], [[17, 15], [15]]) := by
    decide +kernel
  rcases Option.bind_eq_some_iff.mp run with ⟨graph, graphFound, rest⟩
  rcases Option.bind_eq_some_iff.mp rest with ⟨around, aroundFound, others⟩
  rcases Option.map_eq_some_iff.mp others with ⟨goto, gotoFound, values⟩
  simp only [Prod.mk.injEq] at values
  rcases values with ⟨aroundGuarded, gotoUnguarded, bounds, handlers⟩
  rcases ofIds?_eq_some_iff.mp graphFound with ⟨listing, listed, built⟩
  rcases protection_follows_directives listed built with
    ⟨guards, denotes, occurrences, merges, marks⟩
  rw [bounds] at occurrences
  refine ⟨listing, graph, guards, around, goto, listed, built, denotes,
    occurrences, handlers, merges, aroundFound, gotoFound, ?_, ?_⟩
  · exact (marks around (List.mem_of_getElem? aroundFound)).1.mp aroundGuarded
  · rw [← (marks goto (List.mem_of_getElem? gotoFound)).1, gotoUnguarded]
    exact Bool.false_ne_true

end Graph

end SmaliFlow.Flow
