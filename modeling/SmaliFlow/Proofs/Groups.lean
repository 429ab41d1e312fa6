import Mathlib.Data.List.SplitBy
import SmaliFlow.Flow.Layout
import SmaliFlow.Proofs.Control

/-!
# Groups cut the body of a method

Pieces without an instruction wait until a piece with one arrives, and what
still waits at the end goes to the last group.  The invariant of this process
says that the finished groups followed by the waiting rows are the rows taken in
so far, that each finished group executes something, and that nothing which
waits does.

It follows that the groups, put one after another, are the rows outside every
table; and that a row which begins a piece shares its group with the first
instruction at or after it.
-/

namespace SmaliFlow.Flow

namespace Group

/-! ## Joining pieces -/

theorem join_of_executed
    {piece : Group}
    (executed : piece.any Row.isCode = true)
    (groups : List Group)
    (waiting : Group) :
    join (groups, waiting) piece = ((waiting ++ piece) :: groups, []) := by
  simp [join, executed]

theorem join_of_silent
    {piece : Group}
    (silent : piece.any Row.isCode = false)
    (groups : List Group)
    (waiting : Group) :
    join (groups, waiting) piece = (groups, waiting ++ piece) := by
  simp [join, silent]

/-- The state after taking in pieces that hold the given rows. -/
structure Joined (rows : List Row) (state : List Group × Group) : Prop where
  flatten : state.1.reverse.flatten ++ state.2 = rows
  executed : ∀ group ∈ state.1, group.any Row.isCode = true
  silent : state.2.any Row.isCode = false

theorem Joined.start : Joined [] ([], []) where
  flatten := rfl
  executed := by simp
  silent := rfl

theorem Joined.join
    {rows : List Row}
    {state : List Group × Group}
    (joined : Joined rows state)
    (piece : Group) :
    Joined (rows ++ piece) (join state piece) := by
  rcases state with ⟨groups, waiting⟩
  rcases joined with ⟨flatten, executed, silent⟩
  simp only at flatten executed silent
  cases code : piece.any Row.isCode with
  | true =>
      rw [join_of_executed code]
      refine ⟨?_, ?_, rfl⟩
      · simp [← flatten]
      · intro group member
        rcases List.mem_cons.mp member with rfl | earlier
        · rw [List.any_append, code, Bool.or_true]
        · exact executed group earlier
  | false =>
      rw [join_of_silent code]
      refine ⟨?_, executed, ?_⟩
      · simp [← flatten]
      · rw [List.any_append, silent, code, Bool.or_false]

theorem Joined.foldl
    {rows : List Row}
    {state : List Group × Group}
    (joined : Joined rows state)
    (pieces : List Group) :
    Joined (rows ++ pieces.flatten) (pieces.foldl Group.join state) := by
  induction pieces generalizing rows state with
  | nil => simpa using joined
  | cons piece pieces ih =>
      have rest := ih (joined.join piece)
      rw [List.append_assoc] at rest
      exact rest

theorem joined_pieces (pieces : List Group) :
    Joined pieces.flatten (pieces.foldl join ([], [])) := by
  simpa using Joined.start.foldl pieces

theorem Joined.flatten_close
    {rows : List Row}
    {state : List Group × Group}
    (joined : Joined rows state) :
    (close state).flatten = if rows.any Row.isCode then rows else [] := by
  rcases state with ⟨groups, waiting⟩
  rcases joined with ⟨flatten, executed, silent⟩
  simp only at flatten executed silent
  cases groups with
  | nil =>
      have quiet : rows.any Row.isCode = false := by
        rw [← flatten]
        simpa using silent
      simp [close, quiet]
  | cons last groups =>
      have code : rows.any Row.isCode = true := by
        have lastCode := executed last List.mem_cons_self
        rw [← flatten]
        simp [List.any_append, lastCode]
      rw [code, if_pos rfl, ← flatten]
      simp [close]

theorem Joined.executed_of_mem_close
    {rows : List Row}
    {state : List Group × Group}
    (joined : Joined rows state)
    {group : Group}
    (member : group ∈ close state) :
    group.any Row.isCode = true := by
  rcases state with ⟨groups, waiting⟩
  cases groups with
  | nil => simp [close] at member
  | cons last groups =>
      simp only [close, List.mem_reverse] at member
      rcases List.mem_cons.mp member with rfl | earlier
      · rw [List.any_append, joined.executed last List.mem_cons_self,
          Bool.true_or]
      · exact joined.executed group (List.mem_cons_of_mem last earlier)

/-- The groups hold the rows of the pieces in order, if anything is executed. -/
theorem flatten_ofPieces (pieces : List Group) :
    (ofPieces pieces).flatten =
      if pieces.flatten.any Row.isCode then pieces.flatten else [] :=
  (joined_pieces pieces).flatten_close

theorem executed_of_mem_ofPieces
    {pieces : List Group}
    {group : Group}
    (member : group ∈ ofPieces pieces) :
    group.any Row.isCode = true :=
  (joined_pieces pieces).executed_of_mem_close member

/-! ## Pieces that end up in one group -/

theorem foldl_join_of_silent
    (pieces groups : List Group)
    (waiting : Group)
    (silent : ∀ piece ∈ pieces, piece.any Row.isCode = false) :
    pieces.foldl join (groups, waiting) =
      (groups, waiting ++ pieces.flatten) := by
  induction pieces generalizing waiting with
  | nil => simp
  | cons piece pieces ih =>
      have first :=
        join_of_silent (silent piece List.mem_cons_self) groups waiting
      have rest : ∀ piece ∈ pieces, piece.any Row.isCode = false := by
        intro other member
        exact silent other (List.mem_cons_of_mem piece member)
      rw [List.foldl_cons, first, ih _ rest, List.flatten_cons,
        List.append_assoc]

theorem mem_foldl_join
    {group : Group}
    (pieces : List Group)
    (state : List Group × Group)
    (member : group ∈ state.1) :
    group ∈ (pieces.foldl join state).1 := by
  induction pieces generalizing state with
  | nil => exact member
  | cons piece pieces ih =>
      apply ih
      rcases state with ⟨groups, waiting⟩
      cases code : piece.any Row.isCode with
      | true =>
          rw [join_of_executed code]
          exact List.mem_cons_of_mem _ member
      | false =>
          rw [join_of_silent code]
          exact member

theorem exists_mem_close
    {group : Group}
    {state : List Group × Group}
    (member : group ∈ state.1) :
    ∃ closed ∈ close state, group ⊆ closed := by
  rcases state with ⟨groups, waiting⟩
  cases groups with
  | nil => simp at member
  | cons last groups =>
      rcases List.mem_cons.mp member with rfl | earlier
      · refine ⟨group ++ waiting, by simp [close], ?_⟩
        exact List.subset_append_left group waiting
      · refine ⟨group, ?_, List.Subset.refl group⟩
        simp only [close, List.mem_reverse]
        exact List.mem_cons_of_mem _ earlier

/-- Silent pieces share the group of the first executed piece after them. -/
theorem exists_mem_ofPieces_of_silent
    (before silent after : List Group)
    (piece : Group)
    (quiet : ∀ other ∈ silent, other.any Row.isCode = false)
    (executed : piece.any Row.isCode = true) :
    ∃ group ∈ ofPieces (before ++ (silent ++ piece :: after)),
      silent.flatten ++ piece ⊆ group := by
  rcases reached : before.foldl join ([], []) with ⟨groups, waiting⟩
  have passed := foldl_join_of_silent silent groups waiting quiet
  have formed :
      (waiting ++ silent.flatten ++ piece) ∈
        ((before ++ (silent ++ piece :: after)).foldl join ([], [])).1 := by
    rw [List.foldl_append, reached, List.foldl_append, passed, List.foldl_cons,
      join_of_executed executed]
    exact mem_foldl_join after _ List.mem_cons_self
  rcases exists_mem_close formed with ⟨closed, member, contains⟩
  refine ⟨closed, member, ?_⟩
  intro row rowMember
  apply contains
  rw [List.append_assoc]
  exact List.mem_append_right waiting rowMember

end Group

/-! ## Groups of a listing -/

namespace Listing

variable {listing : Listing}

@[simp]
theorem flatten_pieces (listing : Listing) (leaders : List Nat) :
    (listing.pieces leaders).flatten = listing.body := by
  rw [pieces_eq, List.flatten_splitBy]

/-- The pieces before and from a leader on are cut independently. -/
theorem pieces_eq_append
    {leaders : List Nat}
    {front back : List Row}
    {leader : Row}
    (split : listing.body = front ++ leader :: back)
    (leads : leader.position ∈ leaders) :
    ∃ before after, listing.pieces leaders = before ++ after ∧
      after.flatten = leader :: back := by
  let sameGroup : Row → Row → Bool :=
    fun _ row => !leaders.contains row.position
  refine ⟨front.splitBy sameGroup, (leader :: back).splitBy sameGroup, ?_, ?_⟩
  · rw [pieces_eq, split]
    apply List.splitBy_append_cons
    intro row _
    simpa [sameGroup] using leads
  · exact List.flatten_splitBy sameGroup (leader :: back)

/-- The first row from a position on that is executed. -/
structure FirstCode (listing : Listing) (start : Nat) (row : Row) : Prop where
  member : row ∈ listing.body
  code : row.isCode = true
  after : start ≤ row.position
  first : ∀ other ∈ listing.body, other.isCode = true → start ≤ other.position →
    row.position ≤ other.position

private theorem mem_of_append_eq_cons
    {row : Row}
    {front back rows : List Row}
    (nonempty : front ≠ [])
    (joined : front ++ back = row :: rows) :
    row ∈ front := by
  cases front with
  | nil => exact (nonempty rfl).elim
  | cons first front =>
      rw [List.cons_append, List.cons.injEq] at joined
      rw [joined.1]
      exact List.mem_cons_self

/-- The first executed piece of a run of pieces holds its first executed row. -/
theorem exists_first_executed
    {pieces : List Group}
    (ascending : Ascending pieces.flatten)
    {row : Row}
    (member : row ∈ pieces.flatten)
    (code : row.isCode = true)
    (first : ∀ other ∈ pieces.flatten, other.isCode = true →
      row.position ≤ other.position) :
    ∃ silent piece later, pieces = silent ++ piece :: later ∧
      (∀ other ∈ silent, other.any Row.isCode = false) ∧
      piece.any Row.isCode = true ∧ row ∈ silent.flatten ++ piece := by
  cases found : pieces.find? (fun piece => piece.any Row.isCode) with
  | none =>
      rcases List.mem_flatten.mp member with ⟨piece, pieceMember, rowMember⟩
      have executed : piece.any Row.isCode = true :=
        List.any_eq_true.mpr ⟨row, rowMember, code⟩
      have silent := List.find?_eq_none.mp found piece pieceMember
      exact (silent executed).elim
  | some piece =>
      rcases List.find?_eq_some_iff_append.mp found with
        ⟨executed, silent, later, rfl, quiet⟩
      refine ⟨silent, piece, later, rfl, ?_, executed, ?_⟩
      · intro other otherMember
        simpa using quiet other otherMember
      · rw [List.flatten_append, List.flatten_cons, ← List.append_assoc]
          at ascending member
        rcases List.mem_append.mp member with inside | behind
        · exact inside
        · rcases List.any_eq_true.mp executed with
            ⟨other, otherMember, otherCode⟩
          have before : other.position < row.position :=
            (List.pairwise_append.mp ascending).2.2 other
              (List.mem_append_right _ otherMember) row behind
          have after := first other (by simp [otherMember]) otherCode
          omega

/-- A leader shares its group with the first instruction at or after it. -/
theorem exists_group_of_leader
    (positioned : listing.Positioned)
    {leaders : List Nat}
    {leader row : Row}
    (member : leader ∈ listing.body)
    (leads : leader.position ∈ leaders)
    (first : listing.FirstCode leader.position row) :
    ∃ group ∈ Group.ofPieces (listing.pieces leaders),
      leader ∈ group ∧ row ∈ group := by
  rcases List.append_of_mem member with ⟨front, back, split⟩
  rcases pieces_eq_append split leads with ⟨before, after, pieces, flatten⟩
  have ascending := positioned.ascending_body
  rw [split] at ascending
  rcases List.pairwise_append.mp ascending with ⟨-, ascendingBack, crossing⟩
  have behind : row ∈ leader :: back := by
    have rowMember := first.member
    rw [split] at rowMember
    rcases List.mem_append.mp rowMember with earlier | later
    · have order := crossing row earlier leader List.mem_cons_self
      have after := first.after
      omega
    · exact later
  have least : ∀ other ∈ after.flatten, other.isCode = true →
      row.position ≤ other.position := by
    intro other otherMember otherCode
    rw [flatten] at otherMember
    apply first.first other _ otherCode
    · rcases List.mem_cons.mp otherMember with rfl | later
      · exact Nat.le_refl _
      · exact Nat.le_of_lt (Ascending.head_lt ascendingBack later)
    · rw [split]
      exact List.mem_append_right front otherMember
  rw [← flatten] at behind ascendingBack
  rcases exists_first_executed ascendingBack behind first.code least with
    ⟨silent, piece, later, rfl, quiet, executed, rowInside⟩
  rcases Group.exists_mem_ofPieces_of_silent before silent later piece
      quiet executed with
    ⟨group, groupMember, contains⟩
  refine ⟨group, ?_, contains ?_, contains rowInside⟩
  · rw [pieces]
    exact groupMember
  · rw [List.flatten_append, List.flatten_cons, ← List.append_assoc] at flatten
    apply mem_of_append_eq_cons _ flatten
    exact List.ne_nil_of_mem rowInside

end Listing

/-! ## Groups that are separated -/

/--
Groups that hold ascending rows one after another, and each of which is
executed.
-/
structure Group.Separated (groups : List Group) : Prop where
  ascending : Ascending groups.flatten
  executed : ∀ group ∈ groups, ∃ row ∈ group, row.isCode = true

namespace Layout

theorem flatten_groupsOf (listing : Listing) (links : List Link) :
    (groupsOf listing links).flatten =
      if listing.body.any Row.isCode then listing.body else [] := by
  rw [groupsOf, Group.flatten_ofPieces, Listing.flatten_pieces]

theorem separated_groupsOf
    {listing : Listing}
    (positioned : listing.Positioned)
    (links : List Link) :
    Group.Separated (groupsOf listing links) where
  ascending := by
    rw [flatten_groupsOf]
    split
    · exact positioned.ascending_body
    · exact List.Pairwise.nil
  executed := by
    intro group member
    have executed := Group.executed_of_mem_ofPieces member
    exact List.any_eq_true.mp executed

end Layout

end SmaliFlow.Flow
