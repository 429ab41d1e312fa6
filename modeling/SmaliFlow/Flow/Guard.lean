import SmaliFlow.Flow.Link

/-!
# Guarded ranges

A directive guards the rows between two labels by an exception handler.
Directives over the same range share one guarded range, which lists its
handlers without repetition.

Control may leave a guarded range at its last executed row: to every handler,
and to the first row after the range that is not itself part of the directives
that follow it.
-/

namespace SmaliFlow.Flow

/-- A directive with its labels resolved. -/
structure Guard where
  first : Row
  last : Row
  handler : Row
  deriving DecidableEq, Repr

/--
Where control leaves a range of rows, and where it goes on if nothing happens.
-/
structure Exit where
  /--
  The last executed row of the range, or its last row if nothing in it is
  executed.
  -/
  lastProtected : Row
  /-- The row where control goes on after the range. -/
  continuation : Option Row
  deriving DecidableEq, Repr

/-- A range of rows with all the handlers that guard it. -/
structure GuardedRange where
  first : Row
  last : Row
  exit : Exit
  handlers : List Row
  deriving DecidableEq, Repr

namespace GuardedRange

/--
The last executed row of a range, or its last row if nothing in it is executed.
-/
def lastProtected (range : GuardedRange) : Row :=
  range.exit.lastProtected

/-- Whether a range is the one that a directive guards. -/
def isGuardedBy (range : GuardedRange) (guard : Guard) : Bool :=
  range.first == guard.first && range.last == guard.last

end GuardedRange

namespace Row

/-- Whether a row may stand between a range and what follows it. -/
def mayFollowRange (row : Row) : Bool :=
  match row.kind with
  | .guard | .comment | .blank => true
  | _ => false

end Row

/-! ## Ranges of a plain listing -/

namespace Listing

/-- The rows from one row to another, both included. -/
def between (listing : Listing) (first last : Row) : Listing :=
  (listing.drop first.position).take (last.position + 1 - first.position)

/--
The last executed row of a range, or its last row if nothing in it is executed.
-/
def lastProtected (listing : Listing) (first last : Row) : Row :=
  ((listing.between first last).filter Row.isCode).getLast?.getD last

/-- The row where control goes on after a range that ends with the given row. -/
def continuation? (listing : Listing) (last : Row) : Option Row :=
  ((listing.after last).dropWhile Row.mayFollowRange).head?

/-- Where control leaves the range between two rows. -/
def exit (listing : Listing) (first last : Row) : Exit where
  lastProtected := listing.lastProtected first last
  continuation := listing.continuation? last

end Listing

/-! ## Ranges of an indexed listing -/

namespace Index

/-- The last executed row among `count` rows from a position on. -/
def lastCode? (index : Index) (first : Nat) : (count : Nat) → Option Row
  | 0 => none
  | count + 1 =>
      match index.rows[first + count]? with
      | some row => if row.isCode then some row else index.lastCode? first count
      | none => index.lastCode? first count

/-- The first of the last `count` rows that does not merely follow a range. -/
def continuationAmong? (index : Index) : (count : Nat) → Option Row
  | 0 => none
  | count + 1 =>
      match index.rows[index.rows.size - (count + 1)]? with
      | some row =>
          if row.mayFollowRange then
            index.continuationAmong? count else some row
      | none => none

/-- Where control leaves the range between two rows. -/
def exit (index : Index) (first last : Row) : Exit where
  lastProtected :=
    (index.lastCode? first.position (last.position + 1 - first.position)).getD
      last
  continuation :=
    index.continuationAmong? (index.rows.size - (last.position + 1))

/-- Resolve the labels of a directive that stands on the given row. -/
def resolveGuard (index : Index) (row : Row) (directive : CatchDirective) :
    Except Fault Guard := do
  let first ← index.resolve directive.first
  let last ← index.resolve directive.last
  let handler ← index.resolve directive.handler
  if first.position ≤ last.position then
    return { first, last, handler }
  else
    throw (.reversedRange row.number)

/-- All directives of a method in order. -/
def guards (index : Index) : Except Fault (List Guard) :=
  (index.listing.filterMap fun row =>
      row.instruction.guard?.map fun directive => (row, directive)).mapM
    fun (row, directive) => index.resolveGuard row directive

/-- The guarded ranges of a method, in the order of their first directives. -/
def guardedRanges (index : Index) (guards : List Guard) : List GuardedRange :=
  (guards.map fun guard => (guard.first, guard.last)).eraseDups.map
    fun (first, last) =>
      let same := guards.filter fun guard =>
        guard.first == first && guard.last == last
      { first, last
        exit := index.exit first last
        handlers := (same.map Guard.handler).eraseDups }

/--
Where control leaves the range of a directive, which one of the ranges may know.
-/
def exitOf (index : Index) (ranges : List GuardedRange) (guard : Guard) :
    Exit :=
  match ranges.find? fun range => range.isGuardedBy guard with
  | some range => range.exit
  | none => index.exit guard.first guard.last

/-- The ranges of a method know where control leaves them. -/
@[simp]
theorem exitOf_guardedRanges
    (index : Index)
    (guards : List Guard)
    (guard : Guard) :
    index.exitOf (index.guardedRanges guards) guard =
      index.exit guard.first guard.last := by
  unfold exitOf
  cases found : (index.guardedRanges guards).find? fun range =>
      range.isGuardedBy guard with
  | none => rfl
  | some range =>
      have guarded := List.find?_some found
      have member := List.mem_of_find?_eq_some found
      simp only [guardedRanges, List.mem_map] at member
      rcases member with ⟨⟨first, last⟩, _, rfl⟩
      simp only [GuardedRange.isGuardedBy, Bool.and_eq_true, beq_iff_eq]
        at guarded
      rcases guarded with ⟨rfl, rfl⟩
      rfl

theorem lastCode?_ofListing (listing : Listing) (first count : Nat) :
    (ofListing listing).lastCode? first count =
      (((listing.drop first).take count).filter Row.isCode).getLast? := by
  induction count with
  | zero => simp [lastCode?]
  | succ count ih =>
      rw [lastCode?, List.take_add_one, List.filter_append,
        List.getLast?_append, ih]
      simp only [ofListing, List.getElem?_toArray, List.getElem?_drop]
      cases listing[first + count]? with
      | none => simp
      | some row =>
          by_cases code : row.isCode = true
          · simp [code]
          · simp [code]

theorem continuationAmong?_ofListing
    (listing : Listing)
    (count : Nat)
    (fits : count ≤ listing.length) :
    (ofListing listing).continuationAmong? count =
      ((listing.drop (listing.length - count)).dropWhile
        Row.mayFollowRange).head? := by
  induction count with
  | zero => simp [continuationAmong?]
  | succ count ih =>
      have inside : listing.length - (count + 1) < listing.length := by omega
      have shorter :
          listing.length - (count + 1) + 1 = listing.length - count := by omega
      rw [continuationAmong?, ih (by omega), List.drop_eq_getElem_cons inside,
        shorter, List.dropWhile_cons]
      simp only [ofListing, List.size_toArray, List.getElem?_toArray,
        List.getElem?_eq_getElem inside]
      by_cases follows :
        listing[listing.length - (count + 1)].mayFollowRange = true
      · simp [follows]
      · simp [follows]

/-- The exit of a range is that of the plain listing. -/
theorem exit_ofListing (listing : Listing) (first last : Row) :
    (ofListing listing).exit first last = listing.exit first last := by
  unfold exit Listing.exit Listing.lastProtected Listing.between
    Listing.continuation?
    Listing.after
  rw [lastCode?_ofListing]
  congr 1
  rw [show (ofListing listing).rows.size = listing.length by simp [ofListing],
    continuationAmong?_ofListing listing _ (by omega)]
  by_cases inside : last.position + 1 ≤ listing.length
  · rw [show listing.length - (listing.length - (last.position + 1)) =
      last.position + 1 by
      omega]
  · have empty : listing.drop (last.position + 1) = [] := by
      rw [List.drop_eq_nil_iff]
      omega
    have none : listing.length - (last.position + 1) = 0 := by omega
    simp [empty, none]

end Index

namespace Guard

/-- The links of a directive whose range control leaves in the given way. -/
def links (guard : Guard) (exit : Exit) : List Link :=
  (exit.continuation.toList ++ [guard.handler]).map fun target =>
    { source := exit.lastProtected, target, cuts := true }

end Guard

end SmaliFlow.Flow
