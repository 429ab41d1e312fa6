import SmaliFlow.Proofs.Jumps
import SmaliFlow.Proofs.Wiring

/-!
# Guarded ranges by positions

Exception handlers are collected directive by directive.  The first directive
over a range opens it: the last executed position is searched backwards, and the
rows at both ends of the range and at that position are looked up.  Every
directive then finds its range by its place among the ranges, looks up its
handler unless the range has it already, and goes forward to where control goes
on after the range.  From the last executed position there is a jump to there,
and one to the handler.

All of this happens at the directive itself, before anything is known about the
later ones.  On a draft that says what a listing says nothing here is stuck, and
the ranges are the guarded ranges of the listing.
-/

namespace SmaliFlow.Flow

/-- The positions that the labels of a directive stand for. -/
structure Watch where
  first : Nat
  last : Nat
  handler : Nat

/--
Whether a range is the one between the first two positions of a directive.
-/
def GuardedRange.isWatchedBy (range : GuardedRange) (watch : Watch) : Bool :=
  range.first.position == watch.first && range.last.position == watch.last

/-- The guarded ranges of the directives so far, and their jumps. -/
structure Zoning where
  ranges : List GuardedRange
  jumps : List Jump

namespace Draft

/-- Resolve the labels of a directive that stands on the given row. -/
def watch (draft : Draft) (row : Row) (directive : CatchDirective) :
    Checked Watch := do
  let first ← draft.resolve directive.first
  let last ← draft.resolve directive.last
  let handler ← draft.resolve directive.handler
  if first ≤ last then
    return { first, last, handler }
  else
    .fault (.reversedRange row.number)

/-- The last executed position among `count` positions from a given one on. -/
def lastCode (draft : Draft) (first : Nat) :
    (count : Nat) → Checked (Option Nat)
  | 0 => return none
  | count + 1 => do
      let row ← draft.row (first + count)
      if row.isCode then
        return some (first + count)
      else
        draft.lastCode first count

/--
The position where control goes on after a range that ends with the given one.
-/
def continuation (draft : Draft) (last : Nat) : Checked (Option Nat) := do
  let stop ← draft.passOver Row.mayFollowRange (last + 1)
  return if stop < draft.count then some stop else none

/-- The range of a directive, which nothing guards yet. -/
def openRange (draft : Draft) (watch : Watch) : Checked GuardedRange := do
  let code ← draft.lastCode watch.first (watch.last + 1 - watch.first)
  let first ← draft.row watch.first
  let last ← draft.row watch.last
  let lastProtected ← draft.row (code.getD watch.last)
  let next ← draft.continuation watch.last
  let continuation ← next.mapM draft.row
  return {
    first
    last
    exit := { lastProtected, continuation }
    handlers := [] }

/-- The ranges with the one of a directive among them, and its place there. -/
def place (draft : Draft) (ranges : List GuardedRange) (watch : Watch) :
    Checked (List GuardedRange × Nat) :=
  match ranges.findIdx? fun range => range.isWatchedBy watch with
  | some place => return (ranges, place)
  | none => do
      let range ← draft.openRange watch
      return (ranges ++ [range], ranges.length)

/-- Add the handler at a position to a range, unless the range has it. -/
def addHandler (draft : Draft) (range : GuardedRange) (handler : Nat) :
    Checked GuardedRange :=
  if range.handlers.any fun row => row.position == handler then
    return range
  else do
    let row ← draft.row handler
    return { range with handlers := range.handlers ++ [row] }

/-- Take in a directive whose labels are resolved. -/
def enroll (draft : Draft) (zoning : Zoning) (watch : Watch) :
    Checked Zoning := do
  let placed ← draft.place zoning.ranges watch
  let range ← .ofOption placed.1[placed.2]?
  let range ← draft.addHandler range watch.handler
  let next ← draft.continuation watch.last
  let targets := next.toList ++ [watch.handler]
  return {
    ranges := placed.1.set placed.2 range
    jumps := zoning.jumps ++ targets.map fun target =>
      { source := range.lastProtected.position, target, cuts := true } }

/-- Take in the directive at a position, if there is one. -/
def guardAt (draft : Draft) (zoning : Zoning) (position : Nat) :
    Checked Zoning := do
  let row ← draft.row position
  match row.instruction.guard? with
  | none => return zoning
  | some directive => do
      let watch ← draft.watch row directive
      draft.enroll zoning watch

/-- The guarded ranges of all directives, and their jumps. -/
def zoning (draft : Draft) : Checked Zoning :=
  (List.range draft.count).foldlM draft.guardAt { ranges := [], jumps := [] }

end Draft

/-! ## Directives of a listing -/

namespace Guard

/-- The rows at both ends of the range of a directive. -/
def ends (guard : Guard) : Row × Row :=
  (guard.first, guard.last)

/-- A directive by its positions. -/
def watch (guard : Guard) : Watch where
  first := guard.first.position
  last := guard.last.position
  handler := guard.handler.position

/--
The rows of a directive belong to the listing, those of its range in order.
-/
structure Within (guard : Guard) (listing : Listing) : Prop where
  first : guard.first ∈ listing
  last : guard.last ∈ listing
  handler : guard.handler ∈ listing
  ordered : guard.first.position ≤ guard.last.position

/-- Directives whose labels are resolved lie within the listing. -/
theorem within_of_resolveGuard
    {listing : Listing}
    (positioned : listing.Positioned)
    {row : Row}
    {directive : CatchDirective}
    {guard : Guard}
    (resolved : (Index.ofListing listing).resolveGuard row directive =
      .ok guard) :
    guard.Within listing := by
  rcases (Index.resolveGuard_eq_ok_iff positioned row directive guard).mp
    resolved
    with ⟨⟨first, last, handler⟩, ordered⟩
  exact ⟨first.member, last.member, handler.member, ordered⟩

/-- The links of a directive lead from where control leaves its range. -/
theorem map_jump_links (guard : Guard) (exit : Exit) :
    (guard.links exit).map Link.jump =
      ((exit.continuation.map Row.position).toList ++ [guard.watch.handler]).map
        fun target =>
          { source := exit.lastProtected.position, target, cuts := true } := by
  rcases exit with ⟨lastProtected, continuation⟩
  cases continuation <;> rfl

end Guard

namespace Index

/-- The handlers of a range, each of them once. -/
def handlersOf (guards : List Guard) (ends : Row × Row) : List Row :=
  ((guards.filter fun guard =>
    guard.first == ends.1 && guard.last == ends.2).map Guard.handler).eraseDups

/-- The guarded range between two rows. -/
def rangeOf (index : Index) (guards : List Guard) (ends : Row × Row) :
    GuardedRange where
  first := ends.1
  last := ends.2
  exit := index.exit ends.1 ends.2
  handlers := handlersOf guards ends

theorem guardedRanges_eq (index : Index) (guards : List Guard) :
    index.guardedRanges guards =
      (guards.map Guard.ends).eraseDups.map (index.rangeOf guards) :=
  rfl

variable {index : Index} {guards : List Guard} {guard : Guard}

theorem handlersOf_concat
    (guards : List Guard)
    (guard : Guard)
    (ends : Row × Row) :
    handlersOf (guards ++ [guard]) ends =
      if guard.ends = ends then
        Wiring.addNew (handlersOf guards ends) guard.handler
      else
        handlersOf guards ends := by
  have same :
      (guard.first == ends.1 && guard.last == ends.2) = true ↔
        guard.ends = ends := by
    rw [Bool.and_eq_true, beq_iff_eq, beq_iff_eq, Guard.ends, Prod.ext_iff]
  rw [handlersOf, List.filter_append, List.map_append, List.filter_cons,
    List.filter_nil]
  by_cases guarded : guard.ends = ends
  · rw [if_pos (same.mpr guarded), if_pos guarded, List.map_singleton,
      Wiring.eraseDups_concat]
    rfl
  · rw [if_neg (mt same.mp guarded), if_neg guarded, List.map_nil,
      List.append_nil]
    rfl

theorem rangeOf_concat_of_ne {ends : Row × Row} (other : guard.ends ≠ ends) :
    index.rangeOf (guards ++ [guard]) ends = index.rangeOf guards ends := by
  rw [rangeOf, handlersOf_concat, if_neg other]
  rfl

/-- One more directive changes its own range only. -/
theorem set_rangeOf
    {ranges : List (Row × Row)}
    (nodup : ranges.Nodup)
    {place : Nat}
    (found : ranges[place]? = some guard.ends) :
    (ranges.map (index.rangeOf guards)).set place
        (index.rangeOf (guards ++ [guard]) guard.ends) =
      ranges.map (index.rangeOf (guards ++ [guard])) := by
  apply List.ext_getElem?
  intro other
  rw [List.getElem?_set, List.getElem?_map, List.getElem?_map, List.length_map]
  split
  · next same =>
      subst same
      rw [found, Option.map_some, if_pos (List.getElem?_eq_some_iff.mp found).1]
  · next different =>
      cases otherFound : ranges[other]? with
      | none => rfl
      | some ends =>
          rw [Option.map_some, Option.map_some, rangeOf_concat_of_ne]
          rintro rfl
          rcases List.getElem?_eq_some_iff.mp found with ⟨inside, here⟩
          rcases List.getElem?_eq_some_iff.mp otherFound with
            ⟨otherInside, there⟩
          exact different (nodup.getElem_inj_iff.mp (here.trans there.symm))

/-- No handler guards a range that no directive names. -/
theorem handlersOf_eq_nil
    {ends : Row × Row}
    (new : ends ∉ guards.map Guard.ends) :
    handlersOf guards ends = [] := by
  have unguarded :
      (guards.filter fun guard =>
        guard.first == ends.1 && guard.last == ends.2) = [] := by
    rw [List.filter_eq_nil_iff]
    intro guard member same
    rw [Bool.and_eq_true, beq_iff_eq, beq_iff_eq] at same
    exact new (List.mem_map.mpr ⟨guard, member, Prod.ext same.1 same.2⟩)
  rw [handlersOf, unguarded]
  rfl

/-- Positions tell the ranges of directives apart. -/
theorem isWatchedBy_rangeOf_iff
    {listing : Listing}
    (positioned : listing.Positioned)
    {other : Guard}
    (otherWithin : other.Within listing)
    (within : guard.Within listing) :
    (index.rangeOf guards other.ends).isWatchedBy guard.watch = true ↔
      other.ends = guard.ends := by
  rw [GuardedRange.isWatchedBy, Bool.and_eq_true, beq_iff_eq, beq_iff_eq,
    Guard.ends, Guard.ends, Prod.mk.injEq]
  constructor
  · rintro ⟨first, last⟩
    exact ⟨positioned.eq_of_position_eq otherWithin.first within.first first,
      positioned.eq_of_position_eq otherWithin.last within.last last⟩
  · rintro ⟨first, last⟩
    exact ⟨congrArg Row.position first, congrArg Row.position last⟩

end Index

namespace Zoning

/-- The guarded ranges of directives and their jumps. -/
def ofGuards (listing : Listing) (guards : List Guard) : Zoning where
  ranges := (Index.ofListing listing).guardedRanges guards
  jumps := (guards.flatMap fun guard =>
    guard.links (listing.exit guard.first guard.last)).map Link.jump

end Zoning

/-! ## Taking in a directive -/

namespace Draft.Reads

variable {draft : Draft} {listing : Listing} {guards : List Guard}
  {guard : Guard}

theorem watch_eq
    (reads : draft.Reads listing)
    (row : Row)
    (directive : CatchDirective) :
    draft.watch row directive =
      .ofExcept (((Index.ofListing listing).resolveGuard row directive).map
        Guard.watch) := by
  rw [watch, Index.resolveGuard, reads.resolve_eq]
  apply Checked.ofExcept_map_bind
  intro first _
  rw [reads.resolve_eq]
  apply Checked.ofExcept_map_bind
  intro last _
  rw [reads.resolve_eq]
  apply Checked.ofExcept_map_bind
  intro handler _
  split
  · rfl
  · rfl

theorem lastCode_eq
    (reads : draft.Reads listing)
    {first count : Nat}
    (inside : first + count ≤ listing.length) :
    draft.lastCode first count =
      .value ((((listing.drop first).take count).filter Row.isCode).getLast?.map
        Row.position) := by
  induction count with
  | zero => simp [lastCode]
  | succ count ih =>
      have found :=
        List.getElem?_eq_getElem (show first + count < listing.length by omega)
      rw [lastCode, reads.row, found, Checked.ofOption_some, Checked.value_bind,
        ih (by omega), List.take_add_one, List.filter_append,
        List.getLast?_append, List.getElem?_drop, found, Option.toList_some,
        List.filter_cons, List.filter_nil]
      split
      · simp [reads.positioned _ _ found]
      · simp

theorem continuation_eq (reads : draft.Reads listing) (last : Row) :
    draft.continuation last.position =
      .value ((listing.continuation? last).map Row.position) := by
  rcases reads.exists_passOver Row.mayFollowRange (last.position + 1) with
    ⟨stop, passed, left⟩
  rw [continuation, passed, Checked.value_bind, Listing.continuation?,
    Listing.after, ← left, List.head?_drop, reads.count, Checked.pure_eq]
  split
  · next inside =>
      have found := List.getElem?_eq_getElem inside
      rw [found, Option.map_some, reads.positioned _ _ found]
  · next outside => rw [List.getElem?_eq_none (by omega), Option.map_none]

/-- Opening the range of a directive finds where control leaves it. -/
theorem openRange_eq
    (reads : draft.Reads listing)
    (within : guard.Within listing) :
    draft.openRange guard.watch =
      .value
        { first := guard.first
          last := guard.last
          exit := listing.exit guard.first guard.last
          handlers := [] } := by
  have inside := (List.getElem?_eq_some_iff.mp
    (reads.positioned.getElem?_position within.last)).1
  have ordered := within.ordered
  have code := reads.lastCode_eq
    (show guard.first.position +
      (guard.last.position + 1 - guard.first.position) ≤
      listing.length by omega)
  have lastProtected :
      ((((listing.between guard.first guard.last).filter
        Row.isCode).getLast?.map
        Row.position).getD guard.last.position) =
          (listing.lastProtected guard.first guard.last).position := by
    rw [Listing.lastProtected]
    cases ((listing.between guard.first guard.last).filter
      Row.isCode).getLast? <;> rfl
  have protectedMember :
      listing.lastProtected guard.first guard.last ∈ listing := by
    rcases Listing.isLastProtected_lastProtected reads.positioned guard.first
      guard.last with ⟨inRange, -, -⟩ | ⟨isEnd, -⟩
    · exact inRange.1
    · rw [isEnd]
      exact within.last
  have continuation :
      ((listing.continuation? guard.last).map Row.position).mapM draft.row =
        .value (listing.continuation? guard.last) := by
    cases found : listing.continuation? guard.last with
    | none => rfl
    | some row =>
        have continues :=
          (Listing.continuation?_eq_some_iff reads.positioned guard.last row).mp
            found
        rw [Option.map_some, Option.mapM_some,
          reads.row_of_mem continues.member]
        rfl
  rw [Listing.between] at lastProtected
  simp only [openRange, Guard.watch, code, lastProtected, continuation,
    reads.row_of_mem within.first, reads.row_of_mem within.last,
    reads.row_of_mem protectedMember, reads.continuation_eq, Checked.value_bind]
  rfl

/-- The range of a directive is found at its place, and opened if it is new. -/
theorem exists_place
    (reads : draft.Reads listing)
    (known : ∀ other ∈ guards, other.Within listing)
    (within : guard.Within listing) :
    ∃ place,
      draft.place ((Index.ofListing listing).guardedRanges guards) guard.watch =
        .value
          (((guards ++ [guard]).map Guard.ends).eraseDups.map
            ((Index.ofListing listing).rangeOf guards), place) ∧
      ((guards ++ [guard]).map Guard.ends).eraseDups[place]? =
        some guard.ends := by
  have watched : ∀ ends ∈ (guards.map Guard.ends).eraseDups,
      ((Index.ofListing listing).rangeOf guards ends).isWatchedBy guard.watch =
        true ↔
        ends = guard.ends := by
    intro ends member
    rcases List.mem_map.mp (List.mem_eraseDups.mp member) with
      ⟨other, otherMember, rfl⟩
    exact Index.isWatchedBy_rangeOf_iff reads.positioned
      (known other otherMember) within
  have members : guard.ends ∈ (guards.map Guard.ends).eraseDups ↔
      guard.ends ∈ guards.map Guard.ends :=
    List.mem_eraseDups
  rw [Index.guardedRanges_eq, List.map_append, List.map_singleton,
    Wiring.eraseDups_concat, place, List.findIdx?_map]
  generalize (guards.map Guard.ends).eraseDups = ranges at watched members ⊢
  cases found : ranges.findIdx? ((fun range => range.isWatchedBy guard.watch) ∘
      (Index.ofListing listing).rangeOf guards) with
  | some place =>
      rcases List.findIdx?_eq_some_iff_getElem.mp found with ⟨inside, here, -⟩
      have same := (watched _ (List.getElem_mem inside)).mp here
      have old : guard.ends ∈ ranges := same ▸ List.getElem_mem inside
      rw [Wiring.addNew, if_pos (by simpa using old)]
      exact ⟨place, rfl, by rw [List.getElem?_eq_getElem inside, same]⟩
  | none =>
      have new : guard.ends ∉ ranges := by
        intro member
        have missed := List.findIdx?_eq_none_iff.mp found guard.ends member
        rw [Function.comp_apply, (watched guard.ends member).mpr rfl] at missed
        cases missed
      have opened :
          (Index.ofListing listing).rangeOf guards guard.ends =
            { first := guard.first
              last := guard.last
              exit := listing.exit guard.first guard.last
              handlers := [] } := by
        rw [Index.rangeOf, Index.handlersOf_eq_nil (mt members.mpr new),
          Index.exit_ofListing]
        rfl
      rw [Wiring.addNew, if_neg (by simpa using new), List.map_append,
        List.map_singleton, opened]
      refine ⟨ranges.length, ?_, by simp⟩
      simp [reads.openRange_eq within]

/-- A range takes in a handler that it does not have. -/
theorem addHandler_eq
    (reads : draft.Reads listing)
    (known : ∀ other ∈ guards, other.Within listing)
    (within : guard.Within listing) :
    draft.addHandler ((Index.ofListing listing).rangeOf guards guard.ends)
        guard.watch.handler =
      .value ((Index.ofListing listing).rangeOf
        (guards ++ [guard]) guard.ends) := by
  have contained :
      ((Index.handlersOf guards guard.ends).any fun row =>
        row.position == guard.handler.position) =
          (Index.handlersOf guards guard.ends).contains guard.handler := by
    rw [Bool.eq_iff_iff, List.any_eq_true, List.contains_iff_mem]
    constructor
    · rintro ⟨row, member, same⟩
      rcases List.mem_map.mp (List.mem_eraseDups.mp member) with
        ⟨other, otherMember, rfl⟩
      have otherWithin := known other (List.mem_filter.mp otherMember).1
      rwa [← reads.positioned.eq_of_position_eq otherWithin.handler
        within.handler
        (beq_iff_eq.mp same)]
    · intro member
      exact ⟨guard.handler, member, beq_self_eq_true _⟩
  rw [addHandler, Index.rangeOf, Index.rangeOf, Index.handlersOf_concat,
    if_pos rfl, Guard.watch, Wiring.addNew, reads.row_of_mem within.handler]
  dsimp only
  rw [contained]
  split <;> rfl

/-- One more directive is added to the ranges and to the jumps. -/
theorem enroll_eq
    (reads : draft.Reads listing)
    (known : ∀ other ∈ guards, other.Within listing)
    (within : guard.Within listing) :
    draft.enroll (Zoning.ofGuards listing guards) guard.watch =
      .value (Zoning.ofGuards listing (guards ++ [guard])) := by
  rcases reads.exists_place known within with ⟨place, placed, found⟩
  have placed :
      draft.place (Zoning.ofGuards listing guards).ranges guard.watch = _ :=
    placed
  have nodup := Wiring.nodup_eraseDups ((guards ++ [guard]).map Guard.ends)
  have jumps :
      (Zoning.ofGuards listing (guards ++ [guard])).jumps =
        (Zoning.ofGuards listing guards).jumps ++
          (guard.links (listing.exit guard.first guard.last)).map
            Link.jump := by
    simp [Zoning.ofGuards]
  have exit :
      ((Index.ofListing listing).rangeOf (guards ++ [guard]) guard.ends).exit =
        listing.exit guard.first guard.last :=
    Index.exit_ofListing listing guard.first guard.last
  have next : draft.continuation guard.watch.last = _ :=
    reads.continuation_eq guard.last
  rw [Guard.map_jump_links] at jumps
  rw [enroll, placed, Checked.value_bind, List.getElem?_map, found,
    Option.map_some, Checked.ofOption_some, Checked.value_bind,
    reads.addHandler_eq known within, Checked.value_bind, next,
    Checked.value_bind, Index.set_rangeOf nodup found, ← Index.guardedRanges_eq,
    GuardedRange.lastProtected, exit]
  exact congrArg Checked.value (congrArg (Zoning.mk _) jumps.symm)

/-- The directive on a row is added to those before it. -/
theorem guardAt_eq
    (reads : draft.Reads listing)
    (known : ∀ other ∈ guards, other.Within listing)
    {row : Row}
    (member : row ∈ listing) :
    draft.guardAt (Zoning.ofGuards listing guards) row.position =
      match row.instruction.guard? with
      | none => .value (Zoning.ofGuards listing guards)
      | some directive =>
          .ofExcept (((Index.ofListing listing).resolveGuard row directive).map
            fun guard => Zoning.ofGuards listing (guards ++ [guard])) := by
  rw [guardAt, reads.row_of_mem member, Checked.value_bind]
  cases row.instruction.guard? with
  | none => rfl
  | some directive =>
      dsimp only
      rw [reads.watch_eq]
      cases resolved : (Index.ofListing listing).resolveGuard row directive with
      | error cause => rfl
      | ok guard =>
          exact reads.enroll_eq known
            (Guard.within_of_resolveGuard reads.positioned resolved)

/-- Going through rows adds their directives to those before them. -/
theorem foldlM_guardAt_eq
    (reads : draft.Reads listing)
    {rows : List Row}
    (members : ∀ row ∈ rows, row ∈ listing)
    (known : ∀ other ∈ guards, other.Within listing) :
    (rows.map Row.position).foldlM draft.guardAt
      (Zoning.ofGuards listing guards) =
      .ofExcept (((rows.filterMap fun row =>
          row.instruction.guard?.map fun directive => (row, directive)).mapM
            fun entry =>
            (Index.ofListing listing).resolveGuard entry.1 entry.2).map
              fun more =>
        Zoning.ofGuards listing (guards ++ more)) := by
  induction rows generalizing guards with
  | nil => simp [pure, Except.pure, Except.map]
  | cons row rows ih =>
      rcases List.forall_mem_cons.mp members with ⟨member, members⟩
      rw [List.map_cons, List.foldlM_cons, reads.guardAt_eq known member,
        List.filterMap_cons]
      cases row.instruction.guard? with
      | none => exact ih members known
      | some directive =>
          simp only [Option.map_some, List.mapM_cons]
          apply Checked.ofExcept_map_bind
          intro guard resolved
          have within := Guard.within_of_resolveGuard reads.positioned resolved
          rw [ih members fun other otherMember => by
            rcases List.mem_append.mp otherMember with earlier | last
            · exact known other earlier
            · rwa [List.mem_singleton.mp last]]
          cases (rows.filterMap fun row =>
              row.instruction.guard?.map fun directive => (row, directive)).mapM
                fun entry =>
                  (Index.ofListing listing).resolveGuard entry.1 entry.2 with
          | error cause => rfl
          | ok more => simp [Except.map, bind, Except.bind, pure, Except.pure]

/--
The ranges of a method are its guarded ranges, and their jumps are its links.
-/
theorem zoning_eq (reads : draft.Reads listing) :
    draft.zoning =
      .ofExcept ((Index.ofListing listing).guards.map
        (Zoning.ofGuards listing)) := by
  rw [zoning, reads.range_count]
  exact reads.foldlM_guardAt_eq (fun _ member => member) (List.forall_mem_nil _)

end Draft.Reads

end SmaliFlow.Flow
