import SmaliFlow.Proofs.Groups
import SmaliFlow.Proofs.Zones

/-!
# Cutting a method at positions

One pass over the positions of a method collects them into groups.  The pass
keeps the group it is filling.  At a leader it closes that group: if something
in it is executed, it is finished together with what waits before it, and
otherwise it waits itself.

The rows of the open group and the rows still to come are cut into pieces as a
whole, which is what carries the induction: closing a group takes the first of
these pieces away.  So the pass ends with the groups of the listing, by their
positions.
-/

namespace SmaliFlow.Flow

/--
The groups that are finished, the positions that wait, and the group that is
being filled.
-/
structure Partition where
  groups : List (List Nat)
  waiting : List Nat
  current : List Nat

namespace Partition

/-- Nothing has been collected. -/
def start : Partition where
  groups := []
  waiting := []
  current := []

/-- Give the positions that still wait to the last group, if there is one. -/
def finish (partition : Partition) : List (List Nat) :=
  match partition.groups.getLast? with
  | none => []
  | some last => partition.groups.dropLast ++ [last ++ partition.waiting]

end Partition

namespace Draft

/-- Close the group that is being filled, unless it is empty. -/
def closeGroup (draft : Draft) (partition : Partition) : Checked Partition :=
  if partition.current.isEmpty then
    return partition
  else do
    let rows ← partition.current.mapM draft.row
    if rows.any Row.isCode then
      return {
        groups := partition.groups ++ [partition.waiting ++ partition.current]
        waiting := []
        current := [] }
    else
      return {
        groups := partition.groups
        waiting := partition.waiting ++ partition.current
        current := [] }

/-- Take in one position. -/
def collect
    (draft : Draft)
    (leaders : List Nat)
    (partition : Partition)
    (position : Nat) :
    Checked Partition := do
  let row ← draft.row position
  if row.inTable then
    return partition
  else do
    let partition ←
      if leaders.contains position then
        draft.closeGroup partition else pure partition
    return { partition with current := partition.current ++ [position] }

/-- The groups of positions between the given leaders. -/
def groups (draft : Draft) (leaders : List Nat) :
    Checked (List (List Nat)) := do
  let partition ← (List.range draft.count).foldlM
      (draft.collect leaders) Partition.start
  let partition ← draft.closeGroup partition
  return partition.finish

/-- The position after a goto, if there is one. -/
def afterGoto (draft : Draft) (position : Nat) : Checked (List Nat) := do
  let row ← draft.row position
  if !row.inTable && row.kind == .code .goto &&
    decide (position + 1 < draft.count) then
    return [position + 1]
  else
    return []

/--
The positions that begin a group: the first one, those after gotos, and those
where jumps and handlers lead.
-/
def leaders (draft : Draft) (jumps : List Jump) (ranges : List GuardedRange) :
    Checked (List Nat) := do
  let gotos ← (List.range draft.count).mapM draft.afterGoto
  return 0 :: gotos.flatten ++ (jumps.filter Jump.cuts).map Jump.target ++
    (ranges.flatMap GuardedRange.handlers).map Row.position

end Draft

/-! ## Closing groups -/

namespace Partition

/-- The state of the pass over rows, by their positions. -/
def ofRows (state : List Group × Group) (current : Group) : Partition where
  groups := state.1.reverse.map (List.map Row.position)
  waiting := state.2.map Row.position
  current := current.map Row.position

theorem finish_ofRows (state : List Group × Group) (current : Group) :
    (ofRows state current).finish =
      (Group.close state).map (List.map Row.position) := by
  rcases state with ⟨groups, waiting⟩
  cases groups with
  | nil => rfl
  | cons last groups => simp [finish, ofRows, Group.close]

end Partition

namespace Draft.Reads

variable {draft : Draft} {listing : Listing}

theorem mapM_row
    (reads : draft.Reads listing)
    {rows : List Row}
    (members : ∀ row ∈ rows, row ∈ listing) :
    (rows.map Row.position).mapM draft.row = .value rows := by
  rw [Checked.mapM_map_eq_value fun row member =>
    reads.row_of_mem (members row member), List.map_id']

/-- Closing a group takes it in as a piece. -/
theorem closeGroup_eq
    (reads : draft.Reads listing)
    (state : List Group × Group)
    {current : Group}
    (nonempty : current ≠ [])
    (members : ∀ row ∈ current, row ∈ listing) :
    draft.closeGroup (Partition.ofRows state current) =
      .value (Partition.ofRows (Group.join state current) []) := by
  have filled : (current.map Row.position).isEmpty = false := by
    simpa using nonempty
  rcases state with ⟨groups, waiting⟩
  rw [closeGroup, Partition.ofRows, if_neg (by simp [filled]),
    reads.mapM_row members, Checked.value_bind]
  cases code : current.any Row.isCode with
  | true =>
      rw [Group.join_of_executed code]
      simp [Partition.ofRows]
  | false =>
      rw [Group.join_of_silent code]
      simp [Partition.ofRows]

theorem collect_of_inTable
    (reads : draft.Reads listing)
    {row : Row}
    (member : row ∈ listing)
    (inTable : row.inTable = true)
    (leaders : List Nat)
    (partition : Partition) :
    draft.collect leaders partition row.position = .value partition := by
  rw [collect, reads.row_of_mem member, Checked.value_bind, if_pos inTable]
  rfl

theorem collect_of_leader
    (reads : draft.Reads listing)
    {row : Row}
    (member : row ∈ listing)
    (outside : row.inTable = false)
    {leaders : List Nat}
    (leads : leaders.contains row.position = true)
    (state : List Group × Group)
    {current : Group}
    (nonempty : current ≠ [])
    (members : ∀ row ∈ current, row ∈ listing) :
    draft.collect leaders (Partition.ofRows state current) row.position =
      .value (Partition.ofRows (Group.join state current) [row]) := by
  rw [collect, reads.row_of_mem member, Checked.value_bind,
    if_neg (by simp [outside]),
    if_pos leads, reads.closeGroup_eq state nonempty members]
  rfl

theorem collect_of_not_leader
    (reads : draft.Reads listing)
    {row : Row}
    (member : row ∈ listing)
    (outside : row.inTable = false)
    {leaders : List Nat}
    (follows : leaders.contains row.position = false)
    (state : List Group × Group)
    (current : Group) :
    draft.collect leaders (Partition.ofRows state current) row.position =
      .value (Partition.ofRows state (current ++ [row])) := by
  rw [collect, reads.row_of_mem member, Checked.value_bind,
    if_neg (by simp [outside]),
    if_neg (by simp only [follows, Bool.false_eq_true, not_false_iff])]
  simp [Partition.ofRows]

/--
The pass from a group that is being filled on: that group and the rows to come
are cut as a whole, and the pieces are joined one after the other.
-/
theorem foldlM_collect_eq
    (reads : draft.Reads listing)
    {leaders cuts : List Nat}
    {rows : List Row}
    (members : ∀ row ∈ rows, row ∈ listing)
    (agree : ∀ row ∈ rows,
      leaders.contains row.position = cuts.contains row.position)
    (state : List Group × Group)
    {current : Group}
    (nonempty : current ≠ [])
    (currentMembers : ∀ row ∈ current, row ∈ listing)
    (chain : current.IsChain fun _ row => (!cuts.contains row.position) =
      true) :
    (do
      let partition ← (rows.map Row.position).foldlM (draft.collect leaders)
        (Partition.ofRows state current)
      draft.closeGroup partition) =
      .value (Partition.ofRows
        (((current ++ rows.filter fun row => !row.inTable).splitBy fun _ row =>
          !cuts.contains row.position).foldl Group.join state) []) := by
  induction rows generalizing state current with
  | nil =>
      rw [List.filter_nil, List.append_nil,
        List.splitBy_of_isChain nonempty chain]
      exact reads.closeGroup_eq state nonempty currentMembers
  | cons row rows ih =>
      rcases List.forall_mem_cons.mp members with ⟨member, members⟩
      rcases List.forall_mem_cons.mp agree with ⟨here, agree⟩
      have ih := @ih members agree
      rw [List.map_cons, List.foldlM_cons]
      cases inTable : row.inTable with
      | true =>
          rw [reads.collect_of_inTable member inTable,
            List.filter_cons_of_neg (by simp [inTable])]
          exact ih state nonempty currentMembers chain
      | false =>
          rw [List.filter_cons_of_pos (by simp [inTable])]
          cases leads : cuts.contains row.position with
          | true =>
              rw [reads.collect_of_leader member inTable (here.trans leads)
                state nonempty
                currentMembers, List.splitBy_append_cons _ fun _ _ => by
                  rw [leads, Bool.not_true],
                List.splitBy_of_isChain nonempty chain]
              exact ih (Group.join state current) (List.cons_ne_nil row [])
                (by simpa using member) (List.isChain_singleton row)
          | false =>
              have longer :
                  current ++ row :: rows.filter (fun row => !row.inTable) =
                    (current ++ [row]) ++ rows.filter fun row =>
                      !row.inTable := by
                simp
              rw [reads.collect_of_not_leader member inTable (here.trans leads),
                longer]
              apply ih state (by simp)
              · intro other otherMember
                rcases List.mem_append.mp otherMember with earlier | last
                · exact currentMembers other earlier
                · rwa [List.mem_singleton.mp last]
              · refine List.isChain_append.mpr ⟨chain,
                  List.isChain_singleton row, ?_⟩
                intro earlier _ other isHead
                cases isHead
                rw [leads, Bool.not_false]

/--
The pass from its start on: the first row outside every table begins a group,
whether it is a leader or not.
-/
theorem foldlM_collect_start
    (reads : draft.Reads listing)
    {leaders cuts : List Nat}
    {rows : List Row}
    (members : ∀ row ∈ rows, row ∈ listing)
    (ascending : Ascending rows)
    (agree : ∀ row ∈ rows, 0 < row.position →
      leaders.contains row.position = cuts.contains row.position) :
    (do
      let partition ← (rows.map Row.position).foldlM
          (draft.collect leaders) Partition.start
      draft.closeGroup partition) =
      .value (Partition.ofRows
        (((rows.filter fun row => !row.inTable).splitBy fun _ row =>
          !cuts.contains row.position).foldl Group.join ([], [])) []) := by
  induction rows with
  | nil => rfl
  | cons row rows ih =>
      rcases List.forall_mem_cons.mp members with ⟨member, members⟩
      rcases List.forall_mem_cons.mp agree with ⟨-, agree⟩
      rw [List.map_cons, List.foldlM_cons]
      cases inTable : row.inTable with
      | true =>
          rw [reads.collect_of_inTable member inTable,
            List.filter_cons_of_neg (by simp [inTable])]
          exact ih members ascending.tail agree
      | false =>
          have first : draft.collect leaders Partition.start row.position =
              .value (Partition.ofRows ([], []) [row]) := by
            rw [collect, reads.row_of_mem member, Checked.value_bind,
              if_neg (by simp [inTable])]
            split <;> rfl
          rw [first, List.filter_cons_of_pos (by simp [inTable])]
          refine reads.foldlM_collect_eq members
            (fun other otherMember => ?_) ([], [])
            (List.cons_ne_nil row []) (by simpa using member)
              (List.isChain_singleton row)
          have later := ascending.head_lt otherMember
          exact agree other otherMember (by omega)

/--
Positions that agree with the leaders of a listing cut it into its groups.
-/
theorem groups_eq
    (reads : draft.Reads listing)
    {leaders : List Nat}
    {links : List Link}
    (agree : ∀ row ∈ listing, 0 < row.position →
      leaders.contains row.position =
        (listing.leaders links).contains row.position) :
    draft.groups leaders =
      .value ((Layout.groupsOf listing links).map (List.map Row.position)) := by
  have pass :=
    reads.foldlM_collect_start (fun _ member => member)
      reads.positioned.ascending
      agree
  rw [groups, reads.range_count, ← bind_assoc, pass, Checked.value_bind,
    Partition.finish_ofRows, Layout.groupsOf, Listing.pieces_eq]
  rfl

theorem afterGoto_eq
    (reads : draft.Reads listing)
    {row : Row}
    (member : row ∈ listing) :
    draft.afterGoto row.position =
      .value (if !row.inTable && row.kind == .code .goto &&
          decide (row.position + 1 < listing.length) then
            [row.position + 1] else []) := by
  rw [afterGoto, reads.row_of_mem member, Checked.value_bind, reads.count]
  split <;> rfl

end Draft.Reads

/--
Inside a method, the positions after gotos are found from the gotos themselves.
-/
theorem Listing.mem_afterGotos_iff
    {listing : Listing}
    {position : Nat}
    (inside : position < listing.length) :
    position ∈ (listing.map fun row =>
        if !row.inTable && row.kind == .code .goto &&
          decide (row.position + 1 < listing.length) then
            [row.position + 1] else []).flatten ↔
      position ∈ (listing.body.filter fun row => row.kind == .code .goto).map
        fun row =>
        row.position + 1 := by
  simp only [List.mem_flatten, List.mem_map, List.mem_filter, Listing.body]
  constructor
  · rintro ⟨_, ⟨row, member, rfl⟩, found⟩
    split at found
    · next leads =>
        simp only [Bool.and_eq_true] at leads
        exact ⟨row, ⟨⟨member, leads.1.1⟩, leads.1.2⟩,
          (List.mem_singleton.mp found).symm⟩
    · cases found
  · rintro ⟨row, ⟨⟨member, outside⟩, goto⟩, rfl⟩
    refine ⟨_, ⟨row, member, rfl⟩, ?_⟩
    rw [outside, goto, decide_eq_true inside]
    exact List.mem_singleton_self _

namespace Draft.Reads

variable {draft : Draft} {listing : Listing}

/--
The leaders of a draft are those of the listing, apart from the first position.
-/
theorem exists_leaders
    (reads : draft.Reads listing)
    {links : List Link}
    {ranges : List GuardedRange}
    (handled : ∀ range ∈ ranges, ∀ handler ∈ range.handlers,
      handler.position ∈
        (links.filter Link.cuts).map fun link => link.target.position) :
    ∃ leaders, draft.leaders (links.map Link.jump) ranges = .value leaders ∧
      ∀ row ∈ listing, 0 < row.position →
        leaders.contains row.position =
          (listing.leaders links).contains row.position := by
  have gotos :=
    Checked.mapM_map_eq_value fun row member => reads.afterGoto_eq member
  have targets : ((links.map Link.jump).filter Jump.cuts).map Jump.target =
      (links.filter Link.cuts).map fun link => link.target.position := by
    rw [List.filter_map, List.map_map]
    rfl
  refine ⟨_, by
    rw [leaders, reads.range_count, gotos, Checked.value_bind, targets]; rfl,
    ?_⟩
  intro row member later
  have inside := (List.getElem?_eq_some_iff.mp
    (reads.positioned.getElem?_position member)).1
  rw [Bool.eq_iff_iff, List.contains_iff_mem, List.contains_iff_mem,
    Listing.leaders, List.mem_append, List.mem_append, List.mem_append,
    List.mem_cons, Listing.mem_afterGotos_iff inside]
  constructor
  · rintro (((first | leads) | target) | handles)
    · omega
    · exact Or.inl leads
    · exact Or.inr target
    · rcases List.mem_map.mp handles with ⟨handler, handlerMember, same⟩
      rcases List.mem_flatMap.mp handlerMember with
        ⟨range, rangeMember, handles⟩
      rw [← same]
      exact Or.inr (handled range rangeMember handler handles)
  · rintro (leads | target)
    · exact Or.inl (Or.inl (Or.inr leads))
    · exact Or.inl (Or.inr target)

end Draft.Reads

end SmaliFlow.Flow
