import SmaliFlow.Flow.Link
import SmaliFlow.Proofs.Drafts
import SmaliFlow.Proofs.Links

/-!
# Jumps between positions

The links of a method, computed on its draft: a jump leads from the position of
a goto, a branch or a switch to the position of a label or to the next position.
The table of a switch is found by going forward from its label, and its targets
are read on the way to its end.  Both loops look at one position after the other
and stop at the last one.

On a draft that says what a listing says, nothing here is stuck, and the jumps
are the links of the listing by their positions.
-/

namespace SmaliFlow.Flow

/-- A possible passage of control between two positions. -/
structure Jump where
  source : Nat
  target : Nat
  /-- Whether the target begins a block. -/
  cuts : Bool

/-- A link by its positions. -/
def Link.jump (link : Link) : Jump where
  source := link.source.position
  target := link.target.position
  cuts := link.cuts

namespace Draft

/--
The first position from a given one on that holds a row that is not passed over.
-/
def passOver (draft : Draft) (passes : Row → Bool) (position : Nat) :
    Checked Nat :=
  if position < draft.count then do
    let row ← draft.row position
    if passes row then draft.passOver passes (position + 1) else return position
  else
    return position
termination_by draft.count - position

/-- The position that a target in a table leads to. -/
def tableTarget (draft : Draft) (row : Row) : Checked Nat :=
  match SwitchTable.scanTarget? row.text with
  | some target => draft.resolve target.1
  | none => .fault (.malformedTarget row.number)

/--
The positions that the rest of a table leads to, from a given position on.
-/
def tableEntries (draft : Draft) (name : Bytes) (position : Nat) :
    Checked (List Nat) :=
  if position < draft.count then do
    let row ← draft.row position
    if row.inTable then
      if row.closesTable then
        return []
      else if row.holdsTarget then do
        let target ← draft.tableTarget row
        let targets ← draft.tableEntries name (position + 1)
        return target :: targets
      else
        draft.tableEntries name (position + 1)
    else
      .fault (.openTable name)
  else
    .fault (.openTable name)
termination_by draft.count - position

/--
The positions that the table after the label at the given position leads to.
-/
def tableTargets (draft : Draft) (label : Nat) : Checked (List Nat) := do
  let row ← draft.row label
  let opener ← draft.passOver Row.mayPrecedeTable (label + 1)
  if opener < draft.count then do
    let first ← draft.row opener
    if first.inTable then do
      let targets ← draft.tableEntries row.text (opener + 1)
      return targets.eraseDups
    else
      .fault (.missingPayload row.text)
  else
    .fault (.missingPayload row.text)

/-- The position that a jump leads to. -/
def jumpTarget (draft : Draft) (row : Row) : Checked Nat :=
  match row.instruction.label? with
  | some name => draft.resolve name
  | none => .fault (.missingTarget row.number)

/-- The jumps from one position. -/
def jumpsAt (draft : Draft) (position : Nat) : Checked (List Jump) := do
  let row ← draft.row position
  if row.inTable then
    return []
  else
    match row.kind with
    | .code .goto => do
        let target ← draft.jumpTarget row
        return [{ source := position, target, cuts := true }]
    | .code .branch => do
        let target ← draft.jumpTarget row
        let next := if position + 1 < draft.count then [position + 1] else []
        return { source := position, target, cuts := true } ::
          next.map fun target => { source := position, target, cuts := false }
    | .code .switch =>
        match row.instruction.label? with
        | some name => do
            let label ← draft.resolve name
            let targets ← draft.tableTargets label
            return targets.map fun target =>
              { source := position, target, cuts := true }
        | none => .fault (.missingTable row.number)
    | _ => return []

/-- The jumps from all positions. -/
def branchJumps (draft : Draft) : Checked (List Jump) := do
  let jumps ← (List.range draft.count).mapM draft.jumpsAt
  return jumps.flatten

end Draft

/-! ## Going forward -/

namespace Draft.Reads

variable {draft : Draft} {listing : Listing}

theorem row_of_mem
    (reads : draft.Reads listing)
    {row : Row}
    (member : row ∈ listing) :
    draft.row row.position = .value row := by
  rw [reads.row, reads.positioned.getElem?_position member,
    Checked.ofOption_some]

theorem row_of_drop
    (reads : draft.Reads listing)
    {position : Nat}
    {row : Row}
    {rows : List Row}
    (rest : listing.drop position = row :: rows) :
    draft.row position = .value row := by
  rw [reads.row, ← List.head?_drop, rest, List.head?_cons,
    Checked.ofOption_some]

theorem lt_count_of_drop
    (reads : draft.Reads listing)
    {position : Nat}
    {row : Row}
    {rows : List Row}
    (rest : listing.drop position = row :: rows) :
    position < draft.count := by
  rw [reads.count]
  by_contra outside
  rw [List.drop_of_length_le (by omega)] at rest
  cases rest

theorem count_le_of_drop
    (reads : draft.Reads listing)
    {position : Nat}
    (rest : listing.drop position = []) :
    ¬ position < draft.count := by
  rw [reads.count]
  have := List.drop_eq_nil_iff.mp rest
  omega

theorem drop_succ
    {position : Nat}
    {row : Row}
    {rows : List Row}
    (rest : listing.drop position = row :: rows) :
    listing.drop (position + 1) = rows := by
  rw [← List.drop_drop, rest]
  rfl

/-- Going forward ends where the rows begin that are left. -/
theorem exists_passOver
    (reads : draft.Reads listing)
    (passes : Row → Bool)
    (position : Nat) :
    ∃ stop, draft.passOver passes position = .value stop ∧
      listing.drop stop = (listing.drop position).dropWhile passes := by
  induction rest : listing.drop position generalizing position with
  | nil =>
      refine ⟨position, ?_, rest⟩
      rw [passOver, if_neg (reads.count_le_of_drop rest)]
      rfl
  | cons row rows ih =>
      rw [passOver, if_pos (reads.lt_count_of_drop rest),
        reads.row_of_drop rest, Checked.value_bind, List.dropWhile_cons]
      cases passes row with
      | false => exact ⟨position, rfl, rest⟩
      | true => exact ih (position + 1) (drop_succ rest)

end Draft.Reads

/-! ## Tables -/

namespace Index

/-- The rows that the rest of a table leads to. -/
def entryTargets (index : Index) (name : Bytes) :
    (rows : List Row) → Except Fault (List Row)
  | [] => .error (.openTable name)
  | row :: rows =>
      if row.inTable then
        if row.closesTable then
          .ok []
        else if row.holdsTarget then do
          let target ← index.tableTarget row
          let targets ← index.entryTargets name rows
          return target :: targets
        else
          index.entryTargets name rows
      else
        .error (.openTable name)

/-- The targets of a table are read before its end is looked at. -/
theorem entryTargets_eq
    (index : Index)
    (name : Bytes)
    (rows : List Row)
    (view : List Row → List Row) :
    (do
      let isInside := fun row : Row => row.inTable && !row.closesTable
      let targets ←
        ((rows.takeWhile isInside).filter Row.holdsTarget).mapM
          index.tableTarget
      match (rows.dropWhile isInside).head? with
      | some row =>
          if row.inTable then return view targets else throw (.openTable name)
      | none => throw (.openTable name)) =
      (index.entryTargets name rows).map view := by
  induction rows generalizing view with
  | nil => rfl
  | cons row rows ih =>
      simp only [entryTargets, List.takeWhile_cons, List.dropWhile_cons]
      cases inTable : row.inTable with
      | false =>
          simp [inTable]
          rfl
      | true =>
          cases closes : row.closesTable with
          | true =>
              simp [inTable]
              rfl
          | false =>
              cases holds : row.holdsTarget with
              | false => simpa [holds] using ih view
              | true =>
                  cases found : index.tableTarget row with
                  | error cause =>
                      simp [holds, found, bind, Except.bind, Except.map]
                  | ok target =>
                      simp only [Bool.not_false, Bool.and_self, if_true,
                        if_false, List.filter_cons, holds, List.mapM_cons,
                        found, bind_assoc, pure_bind, Bool.false_eq_true]
                      refine (ih fun targets => view (target :: targets)).trans
                        ?_
                      cases index.entryTargets name rows <;> rfl

theorem tableTargets_eq (index : Index) (label : Row) :
    index.tableTargets label =
      match (index.listing.after label).dropWhile Row.mayPrecedeTable with
      | [] => .error (.missingPayload label.text)
      | opener :: rows =>
          if opener.inTable then
            (index.entryTargets label.text rows).map List.eraseDups
          else
            .error (.missingPayload label.text) := by
  rw [tableTargets]
  cases (index.listing.after label).dropWhile Row.mayPrecedeTable with
  | nil => rfl
  | cons opener rows =>
      exact if_congr Iff.rfl (index.entryTargets_eq label.text rows
        List.eraseDups) rfl

theorem mem_of_entryTargets
    {listing : Listing}
    (positioned : listing.Positioned)
    {name : Bytes}
    {rows targets : List Row}
    (read : (ofListing listing).entryTargets name rows = .ok targets) :
    ∀ target ∈ targets, target ∈ listing := by
  induction rows generalizing targets with
  | nil => cases read
  | cons row rows ih =>
      rw [entryTargets] at read
      split at read
      · split at read
        · cases read
          simp
        · split at read
          · rcases bind_eq_ok_iff.mp read with ⟨first, found, read⟩
            rcases bind_eq_ok_iff.mp read with ⟨rest, later, returned⟩
            cases returned
            refine List.forall_mem_cons.mpr ⟨?_, ih later⟩
            rw [tableTarget] at found
            split at found
            · exact ((resolve_eq_ok_iff positioned _ _).mp found).member
            · cases found
          · exact ih read
      · cases read

end Index

namespace Draft.Reads

variable {draft : Draft} {listing : Listing}

theorem resolve_eq (reads : draft.Reads listing) (name : Bytes) :
    draft.resolve name =
      .ofExcept (((Index.ofListing listing).resolve name).map
        Row.position) := by
  rw [resolve, reads.label, Index.resolve_ofListing, Listing.resolve]
  cases listing.label? name <;> rfl

theorem tableTarget_eq (reads : draft.Reads listing) (row : Row) :
    draft.tableTarget row =
      .ofExcept (((Index.ofListing listing).tableTarget row).map
        Row.position) := by
  rw [tableTarget, Index.tableTarget]
  cases SwitchTable.scanTarget? row.text with
  | none => rfl
  | some target => exact reads.resolve_eq target.1

theorem tableEntries_eq
    (reads : draft.Reads listing)
    (name : Bytes)
    (position : Nat) :
    draft.tableEntries name position =
      .ofExcept (((Index.ofListing listing).entryTargets name
        (listing.drop position)).map
        (List.map Row.position)) := by
  induction rest : listing.drop position generalizing position with
  | nil =>
      rw [tableEntries, if_neg (reads.count_le_of_drop rest)]
      rfl
  | cons row rows ih =>
      rw [tableEntries, if_pos (reads.lt_count_of_drop rest),
        reads.row_of_drop rest, Checked.value_bind, Index.entryTargets,
        ih (position + 1) (drop_succ rest), reads.tableTarget_eq]
      split
      · split
        · rfl
        · split
          · apply Checked.ofExcept_map_bind
            intro target _
            apply Checked.ofExcept_map_bind
            intro targets _
            rfl
          · rfl
      · rfl

/-- The targets of a table are those of the listing, by their positions. -/
theorem tableTargets_eq
    (reads : draft.Reads listing)
    {label : Row}
    (member : label ∈ listing) :
    draft.tableTargets label.position =
      .ofExcept (((Index.ofListing listing).tableTargets label).map
        (List.map Row.position)) := by
  rcases reads.exists_passOver Row.mayPrecedeTable (label.position + 1) with
    ⟨opener, passed, left⟩
  rw [tableTargets, reads.row_of_mem member, Checked.value_bind, passed,
    Checked.value_bind, Index.tableTargets_eq, Index.listing_ofListing,
    Listing.after, ← left]
  cases rest : listing.drop opener with
  | nil =>
      rw [if_neg (reads.count_le_of_drop rest), Except.map,
        Checked.ofExcept_error]
  | cons first rows =>
      rw [if_pos (reads.lt_count_of_drop rest), reads.row_of_drop rest,
        Checked.value_bind]
      dsimp only
      split
      · rw [reads.tableEntries_eq, drop_succ rest]
        cases read : (Index.ofListing listing).entryTargets label.text rows with
        | error cause => rfl
        | ok targets =>
            have members := Index.mem_of_entryTargets reads.positioned read
            have distinct : (targets.map Row.position).eraseDups =
                targets.eraseDups.map Row.position :=
              eraseDups_map_of_mem fun left leftMember right rightMember =>
                reads.positioned.eq_of_position_eq (members left leftMember)
                  (members right rightMember)
            exact congrArg Checked.value distinct
      · rfl

theorem jumpTarget_eq (reads : draft.Reads listing) (row : Row) :
    draft.jumpTarget row =
      .ofExcept (((Index.ofListing listing).jumpTarget row).map
        Row.position) := by
  rw [jumpTarget, Index.jumpTarget]
  cases row.instruction.label? with
  | none => rfl
  | some name => exact reads.resolve_eq name

/-- The next position is the one of the next row, if there is one. -/
theorem next_eq (reads : draft.Reads listing) (row : Row) :
    (if row.position + 1 < draft.count then [row.position + 1] else []) =
      ((Index.ofListing listing).next? row).toList.map Row.position := by
  rw [Index.next?_ofListing, Listing.after, List.head?_drop, reads.count]
  split
  · next inside =>
      have found := List.getElem?_eq_getElem inside
      rw [found, Option.toList_some, List.map_singleton,
        reads.positioned _ _ found]
  · next outside =>
      rw [List.getElem?_eq_none (by omega)]
      rfl

/-- The jumps from a position are the links of its row. -/
theorem jumpsAt_eq
    (reads : draft.Reads listing)
    {row : Row}
    (member : row ∈ listing) :
    draft.jumpsAt row.position =
      if row.inTable then
        .value []
      else
        .ofExcept (((Index.ofListing listing).rowLinks
          (Index.ofListing listing).switchTargets row).map
            (List.map Link.jump)) := by
  rw [jumpsAt, reads.row_of_mem member, Checked.value_bind, Index.rowLinks]
  split
  · rfl
  · cases row.kind with
    | code family =>
        cases family with
        | goto =>
            dsimp only
            rw [reads.jumpTarget_eq]
            apply Checked.ofExcept_map_bind
            intro target _
            rfl
        | branch =>
            dsimp only
            rw [reads.jumpTarget_eq]
            apply Checked.ofExcept_map_bind
            intro target _
            rw [reads.next_eq]
            simp [Except.map, pure, Except.pure, Link.jump, Function.comp_def]
        | switch =>
            cases row.instruction.label? with
            | none => rfl
            | some name =>
                dsimp only
                rw [reads.resolve_eq, Index.switchTargets, bind_assoc]
                apply Checked.ofExcept_map_bind
                intro label resolved
                have member :=
                  ((Index.resolve_eq_ok_iff reads.positioned name label).mp
                    resolved).member
                rw [reads.tableTargets_eq member]
                apply Checked.ofExcept_map_bind
                intro targets _
                simp [Except.map, pure, Except.pure, Link.jump,
                  Function.comp_def]
        | _ => rfl
    | _ => rfl

/-- The positions of a method are those of its rows. -/
theorem range_count (reads : draft.Reads listing) :
    List.range draft.count = listing.map Row.position := by
  apply List.ext_getElem
  · rw [List.length_range, List.length_map, reads.count]
  · intro position inRange inListing
    rw [List.getElem_range, List.getElem_map]
    rw [List.length_map] at inListing
    exact (reads.positioned _ _ (List.getElem?_eq_getElem inListing)).symm

/-- The jumps of a method are the links of its branches, by their positions. -/
theorem branchJumps_eq (reads : draft.Reads listing) :
    draft.branchJumps =
      .ofExcept ((Index.ofListing listing).branchLinks.map
        (List.map Link.jump)) := by
  have agree : ∀ row ∈ listing, draft.jumpsAt row.position =
      if !row.inTable then
        .ofExcept (((Index.ofListing listing).rowLinks
          (Index.ofListing listing).switchTargets row).map (List.map Link.jump))
      else
        .value [] := by
    intro row member
    rw [reads.jumpsAt_eq member]
    cases row.inTable <;> rfl
  rw [branchJumps, reads.range_count, Checked.mapM_flatten_eq agree,
    Index.branchLinks_eq, Index.listing_ofListing, Listing.body]
  cases (listing.filter fun row => !row.inTable).mapM
    ((Index.ofListing listing).rowLinks
      (Index.ofListing listing).switchTargets) <;> rfl

end Draft.Reads

end SmaliFlow.Flow
