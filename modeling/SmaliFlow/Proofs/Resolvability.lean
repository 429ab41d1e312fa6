import SmaliFlow.Proofs.Extents
import SmaliFlow.Proofs.Rebuild

/-!
# Which methods can be built

A build can fail while labels of jumps and tables are resolved, while directives
are resolved, and while the ends of links are looked up among the blocks.  The
first two passes fail at single rows, so they succeed exactly if every row is in
order.

The third pass looks up rows by their positions.  A row that is named by a label
stands outside the tables and belongs to a block as soon as the method executes
anything.  The row behind a conditional branch, the row behind a guarded range
and the last protected row may be rows of a table, which lie in a block only if
the block goes on behind the table.

The main statement puts the three passes together: a method is built without a
fault exactly if its listing is resolvable.
-/

namespace SmaliFlow

namespace Flow

theorem exists_bind_eq_ok_iff
    {ε α β : Type}
    {outcome : Except ε α}
    {next : α → Except ε β} :
    (∃ result, outcome >>= next = .ok result) ↔
      ∃ value, outcome = .ok value ∧ ∃ result, next value = .ok result := by
  simp only [bind_eq_ok_iff]
  constructor
  · rintro ⟨result, value, first, second⟩
    exact ⟨value, first, result, second⟩
  · rintro ⟨value, first, result, second⟩
    exact ⟨result, value, first, second⟩

/-- A pass over a list succeeds exactly if it succeeds at each element. -/
theorem exists_mapM_eq_ok_iff
    {ε α β : Type}
    (function : α → Except ε β)
    (values : List α) :
    (∃ results, values.mapM function = .ok results) ↔
      ∀ value ∈ values, ∃ result, function value = .ok result := by
  constructor
  · rintro ⟨results, mapped⟩ value member
    rcases exists_of_mapM_eq_ok mapped member with ⟨result, -, applied⟩
    exact ⟨result, applied⟩
  · intro applied
    induction values with
    | nil => exact ⟨[], rfl⟩
    | cons value values ih =>
        rcases applied value List.mem_cons_self with ⟨first, firstApplied⟩
        rcases ih fun other member =>
            applied other (List.mem_cons_of_mem value member) with
          ⟨others, mapped⟩
        refine ⟨first :: others, ?_⟩
        rw [mapM_eq_ok_iff] at mapped ⊢
        exact .cons firstApplied mapped

/-! ## Resolvable listings -/

namespace Listing

/--
The table that the label row stands in front of reaches a closing row:
everything between its opening row and that row belongs to a table and closes
none.
-/
structure HasTable (listing : Listing) (label opener closer : Row) : Prop where
  opens : listing.Opens label opener
  member : closer ∈ listing
  after : opener.position < closer.position
  inTable : closer.inTable = true
  closes : closer.closesTable = true
  inside : ∀ row ∈ listing, opener.position < row.position →
    row.position < closer.position →
      row.inTable = true ∧ row.closesTable = false

/-- The label row stands in front of a table all of whose targets resolve. -/
def ReadsTable (listing : Listing) (label : Row) : Prop :=
  ∃ opener closer, listing.HasTable label opener closer ∧
    ∀ entry ∈ listing, opener.position < entry.position →
      entry.position < closer.position → entry.holdsTarget = true →
      ∃ target, listing.EntryLeadsTo entry target

/--
The labels of a directive resolve, and its range does not end before it begins.
-/
def ResolvesDirective (listing : Listing) (directive : CatchDirective) : Prop :=
  ∃ first last handler, listing.Resolves directive.first first ∧
    listing.Resolves directive.last last ∧
    listing.Resolves directive.handler handler ∧
    first.position ≤ last.position

/--
A row at which a link ends because of its position, and not because a label
names it.
-/
inductive UnnamedEnd (listing : Listing) (row : Row) : Prop where
  /-- The row follows a conditional branch that is outside every table. -/
  | fallThrough
      {branch : Row}
      (source : branch ∈ listing.body)
      (kind : branch.kind = .code .branch)
      (member : row ∈ listing)
      (next : row.position = branch.position + 1) :
      UnnamedEnd listing row
  /-- Control goes on at the row behind a guarded range. -/
  | continuation
      {guard : Guard}
      (guards : listing.HasGuard guard)
      (continues : listing.Continues guard.last row) :
      UnnamedEnd listing row
  /-- The row is the last protected one of a guarded range. -/
  | lastProtected
      {guard : Guard}
      (guards : listing.HasGuard guard)
      (isLast : listing.IsLastProtected guard.first guard.last row) :
      UnnamedEnd listing row

/-- Everything that a build needs. -/
structure Resolvable (listing : Listing) : Prop where
  /-- Every goto and every conditional branch names a label that resolves. -/
  jumps : ∀ row ∈ listing.body,
    row.kind = .code .goto ∨ row.kind = .code .branch →
    ∃ target, listing.JumpsTo row target
  /-- Every switch names a label in front of a table that can be read. -/
  switches : ∀ row ∈ listing.body, row.kind = .code .switch →
    ∃ label, listing.JumpsTo row label ∧ listing.ReadsTable label
  directives : ∀ row ∈ listing, ∀ directive,
    row.instruction = .guard directive →
    listing.ResolvesDirective directive
  /--
  If anything is executed, no link ends at a row of a table outside every block.
  -/
  ends : (∃ row ∈ listing.body, row.isCode = true) →
    ∀ row, listing.UnnamedEnd row → row.inTable = true →
      listing.InBlockSpan row.position
  /-- If nothing is executed, there is no directive. -/
  unguarded : (∀ row ∈ listing.body, row.isCode = false) →
    ∀ row ∈ listing, ∀ directive, row.instruction ≠ .guard directive

end Listing

/-! ## Tables, jumps and switches -/

namespace Index

variable {listing : Listing}

/-- When the targets of a table can be read, by what stands behind its label. -/
theorem exists_tableTargets_eq_ok_iff (label : Row) :
    (∃ targets, (ofListing listing).tableTargets label = .ok targets) ↔
      ∃ opener rows closer,
        (listing.after label).dropWhile Row.mayPrecedeTable = opener :: rows ∧
        opener.inTable = true ∧
        (rows.dropWhile fun row => row.inTable && !row.closesTable).head? =
          some closer ∧
        closer.inTable = true ∧
        ∀ entry ∈ (rows.takeWhile fun row => row.inTable &&
          !row.closesTable).filter
            Row.holdsTarget,
          ∃ target, (ofListing listing).tableTarget entry = .ok target := by
  unfold tableTargets
  rw [listing_ofListing]
  cases dropped : (listing.after label).dropWhile Row.mayPrecedeTable with
  | nil => simp
  | cons opener rows =>
      cases inTable : opener.inTable with
      | false => simp [inTable]
      | true =>
          simp only [inTable, if_true, ← exists_mapM_eq_ok_iff]
          rw [exists_bind_eq_ok_iff]
          constructor
          · rintro ⟨found, mapped, targets, closed⟩
            cases head :
                (rows.dropWhile fun row => row.inTable &&
                  !row.closesTable).head? with
            | none =>
                rw [head] at closed
                cases closed
            | some closer =>
                rw [head] at closed
                refine ⟨opener, rows, closer, rfl, inTable, head, ?_, found,
                  mapped⟩
                cases closing : closer.inTable with
                | true => rfl
                | false =>
                    simp only [closing, Bool.false_eq_true, if_false] at closed
                    cases closed
          · rintro ⟨other, others, closer, split, -, head, closing, found,
              mapped⟩
            rw [List.cons.injEq] at split
            rcases split with ⟨rfl, rfl⟩
            refine ⟨found, mapped, found.eraseDups, ?_⟩
            simp only [head, closing, if_true]
            rfl

/--
The targets of a table can be read exactly if the table is closed and they all
resolve.
-/
theorem exists_tableTargets_iff_readsTable
    (positioned : listing.Positioned)
    (label : Row) :
    (∃ targets, (ofListing listing).tableTargets label = .ok targets) ↔
      listing.ReadsTable label := by
  rw [exists_tableTargets_eq_ok_iff]
  -- What stands behind the opening row is described by positions from here on.
  have behind {opener : Row} {rows : List Row}
      (dropped : (listing.after label).dropWhile Row.mayPrecedeTable =
        opener :: rows) :
      Ascending rows ∧
        ∀ row, row ∈ rows ↔ row ∈ listing ∧ opener.position < row.position := by
    have suffix : (opener :: rows) <:+ listing := by
      rw [← dropped]
      exact (List.dropWhile_suffix _).trans (List.drop_suffix _ _)
    rcases suffix with ⟨front, joined⟩
    refine ⟨positioned.ascending.sublist ?_,
      positioned.mem_back_iff joined.symm⟩
    rw [← joined]
    simp
  constructor
  · rintro ⟨opener, rows, closer, dropped, inTable, head, closing, entries⟩
    rcases behind dropped with ⟨ascending, mem_rows⟩
    have opens : listing.Opens label opener :=
      (Listing.opens_iff positioned label opener).mpr
        ⟨by rw [dropped]; rfl, inTable⟩
    rw [ascending.head?_dropWhile_eq_some_iff] at head
    simp only [mem_rows, Bool.and_eq_false_iff, Bool.and_eq_true,
      Bool.not_eq_true', Bool.not_eq_false'] at head
    rcases head with ⟨⟨member, after⟩, stops, between⟩
    have closes : closer.closesTable = true := by
      rcases stops with outside | closes
      · rw [closing] at outside
        cases outside
      · exact closes
    refine ⟨opener, closer, ⟨opens, member, after, closing, closes, ?_⟩, ?_⟩
    · intro row rowMember rowAfter rowBefore
      exact between row ⟨rowMember, rowAfter⟩ rowBefore
    · intro entry entryMember entryAfter entryBefore holds
      have inside : entry ∈ rows.takeWhile fun row =>
          row.inTable && !row.closesTable := by
        rw [ascending.mem_takeWhile_iff]
        refine ⟨(mem_rows entry).mpr ⟨entryMember, entryAfter⟩, ?_⟩
        intro row rowMember reached
        simpa using between row ((mem_rows row).mp rowMember) (by omega)
      rcases entries entry (List.mem_filter.mpr ⟨inside, holds⟩) with
        ⟨target, leads⟩
      exact ⟨target, (tableTarget_eq_ok_iff positioned entry target).mp leads⟩
  · rintro ⟨opener, closer, hasTable, entries⟩
    rcases (Listing.opens_iff positioned label opener).mp hasTable.opens with
      ⟨head, inTable⟩
    rcases List.head?_eq_some_iff.mp head with ⟨rows, dropped⟩
    rcases behind dropped with ⟨ascending, mem_rows⟩
    refine ⟨opener, rows, closer, dropped, inTable, ?_, hasTable.inTable, ?_⟩
    · rw [ascending.head?_dropWhile_eq_some_iff, mem_rows]
      refine ⟨⟨hasTable.member, hasTable.after⟩, by simp [hasTable.closes], ?_⟩
      intro row rowMember before
      rcases (mem_rows row).mp rowMember with ⟨member, after⟩
      simpa using hasTable.inside row member after before
    · intro entry entryMember
      rw [List.mem_filter, ascending.mem_takeWhile_iff] at entryMember
      rcases entryMember with ⟨⟨inside, passed⟩, holds⟩
      rcases (mem_rows entry).mp inside with ⟨member, after⟩
      have before : entry.position < closer.position := by
        by_contra reached
        have stops :=
          passed closer ((mem_rows closer).mpr
            ⟨hasTable.member, hasTable.after⟩)
            (by omega)
        simp [hasTable.closes] at stops
      rcases entries entry member after before holds with ⟨target, leads⟩
      exact ⟨target, (tableTarget_eq_ok_iff positioned entry target).mpr leads⟩

theorem exists_rowLinks_iff (positioned : listing.Positioned) (row : Row) :
    (∃ links, (ofListing listing).rowLinks (ofListing listing).switchTargets
      row = .ok links) ↔
      (row.kind = .code .goto ∨ row.kind = .code .branch →
        ∃ target, listing.JumpsTo row target) ∧
      (row.kind = .code .switch →
        ∃ label, listing.JumpsTo row label ∧ listing.ReadsTable label) := by
  unfold rowLinks
  split
  · rename_i kind
    simp only [exists_bind_eq_ok_iff, jumpTarget_eq_ok_iff positioned, kind]
    simp [pure, Except.pure]
  · rename_i kind
    simp only [exists_bind_eq_ok_iff, jumpTarget_eq_ok_iff positioned, kind]
    simp [pure, Except.pure]
  · rename_i kind
    cases operand : row.instruction.label? with
    | none => simp [kind, Listing.JumpsTo, operand]
    | some name =>
        have read :
            (∃ targets, (ofListing listing).switchTargets name = .ok targets) ↔
              ∃ label,
                listing.Resolves name label ∧ listing.ReadsTable label := by
          simp only [switchTargets, exists_bind_eq_ok_iff,
            resolve_eq_ok_iff positioned,
            exists_tableTargets_iff_readsTable positioned]
        simp only [Listing.JumpsTo, operand, Option.some.injEq, exists_eq_left',
          ← read]
        rw [exists_bind_eq_ok_iff]
        simp [kind, pure, Except.pure]
  · rename_i notGoto notBranch notSwitch
    simp only [Except.ok.injEq, exists_eq', true_iff]
    refine ⟨?_, fun switch => (notSwitch switch).elim⟩
    rintro (goto | branch)
    · exact (notGoto goto).elim
    · exact (notBranch branch).elim

theorem exists_branchLinks_iff (listing : Listing) :
    (∃ links, (ofListing listing).branchLinks = .ok links) ↔
      ∀ row ∈ listing.body, ∃ links,
        (ofListing listing).rowLinks (ofListing listing).switchTargets row =
          .ok links := by
  rw [branchLinks_eq, listing_ofListing, ← exists_mapM_eq_ok_iff]
  cases listing.body.mapM ((ofListing listing).rowLinks
    (ofListing listing).switchTargets) <;>
    simp [Except.map]

theorem exists_guards_iff (positioned : listing.Positioned) :
    (∃ guards, (ofListing listing).guards = .ok guards) ↔
      ∀ row ∈ listing, ∀ directive, row.instruction = .guard directive →
        listing.ResolvesDirective directive := by
  rw [Index.guards, listing_ofListing, exists_mapM_eq_ok_iff]
  constructor
  · intro resolved row member directive written
    rcases resolved (row,
      directive) ((mem_directives_iff row directive).mpr ⟨member, written⟩)
      with ⟨guard, found⟩
    rcases (resolveGuard_eq_ok_iff positioned row directive guard).mp found with
      ⟨⟨first, last, handler⟩, ordered⟩
    exact ⟨guard.first, guard.last, guard.handler, first, last, handler,
      ordered⟩
  · rintro resolves ⟨row, directive⟩ listed
    rcases (mem_directives_iff row directive).mp listed with ⟨member, written⟩
    rcases resolves row member directive written with
      ⟨first, last, handler, firstResolves, lastResolves, handlerResolves,
        ordered⟩
    exact ⟨⟨first, last, handler⟩,
      (resolveGuard_eq_ok_iff positioned row directive _).mpr
      ⟨⟨firstResolves, lastResolves, handlerResolves⟩, ordered⟩⟩

end Index

/-! ## Ends of links -/

namespace Listing

variable {listing : Listing}

theorem UnnamedEnd.mem {row : Row} (isEnd : listing.UnnamedEnd row) :
    row ∈ listing := by
  cases isEnd with
  | fallThrough _ _ member => exact member
  | continuation _ continues => exact continues.member
  | lastProtected guards isLast =>
      rcases isLast with ⟨inRange, -, -⟩ | ⟨rfl, -⟩
      · exact inRange.1
      · rcases guards with ⟨_, -, _, -, -, last, -⟩
        exact last.member

/-- A link begins at a row outside the tables or at a last protected row. -/
theorem Leads.source_mem_body_or_unnamedEnd
    {source target : Row}
    {cuts : Bool}
    (leads : listing.Leads source target cuts) :
    source ∈ listing.body ∨ listing.UnnamedEnd source := by
  cases leads with
  | branch member => exact Or.inl member
  | leave guards isLast => exact Or.inr (.lastProtected guards isLast)
  | handle guards isLast => exact Or.inr (.lastProtected guards isLast)

/--
A link leads to a row outside the tables, behind a branch or behind a range.
-/
theorem Leads.target_mem_body_or_unnamedEnd
    {source target : Row}
    {cuts : Bool}
    (leads : listing.Leads source target cuts) :
    target ∈ listing.body ∨ listing.UnnamedEnd target := by
  cases leads with
  | branch member branches =>
      cases branches with
      | jump _ jumps => exact Or.inl jumps.mem_body
      | fallThrough kind targetMember next =>
          exact Or.inr (.fallThrough member kind targetMember next)
      | switch _ switches => exact Or.inl switches.mem_body
  | leave guards _ continues => exact Or.inr (.continuation guards continues)
  | handle guards => exact Or.inl guards.handler_mem_body

/-- The rows where links end without a label are ends of links. -/
theorem UnnamedEnd.exists_leads
    (positioned : listing.Positioned)
    {row : Row}
    (isEnd : listing.UnnamedEnd row) :
    (∃ target cuts, listing.Leads row target cuts) ∨
      ∃ source cuts, listing.Leads source row cuts := by
  cases isEnd with
  | fallThrough source kind member next =>
      exact Or.inr ⟨_, _, .branch source (.fallThrough kind member next)⟩
  | continuation guards continues =>
      exact Or.inr ⟨_, _, .leave guards
        (listing.isLastProtected_lastProtected positioned _ _) continues⟩
  | lastProtected guards isLast => exact Or.inl ⟨_, _, .handle guards isLast⟩

end Listing

namespace Layout

variable {listing : Listing} {layout : Layout}

/--
A method can be laid out exactly if all its branches and directives resolve.
-/
theorem exists_ofListing_iff (positioned : listing.Positioned) :
    (∃ layout, ofListing listing = .ok layout) ↔
      (∀ row ∈ listing.body,
        (row.kind = .code .goto ∨ row.kind = .code .branch →
          ∃ target, listing.JumpsTo row target) ∧
        (row.kind = .code .switch →
          ∃ label, listing.JumpsTo row label ∧ listing.ReadsTable label)) ∧
      ∀ row ∈ listing, ∀ directive, row.instruction = .guard directive →
        listing.ResolvesDirective directive := by
  simp only [← Index.exists_rowLinks_iff positioned,
    ← Index.exists_branchLinks_iff, ← Index.exists_guards_iff positioned]
  rw [ofListing, exists_bind_eq_ok_iff]
  simp only [exists_bind_eq_ok_iff, pure, Except.pure, Except.ok.injEq,
    exists_eq', and_true]
  exact exists_and_right

/-- Every end of a link lies in the span of a group. -/
def EndsCovered (listing : Listing) (groups : List Group) : Prop :=
  ∀ source target cuts, listing.Leads source target cuts →
    (∃ index, Group.Covers groups index source.position) ∧
      ∃ index, Group.Covers groups index target.position

/--
The groups can be connected exactly if every link ends in the spans of groups.
-/
theorem exists_connect_iff
    (positioned : listing.Positioned)
    (laid : ofListing listing = .ok layout) :
    (∃ graph, layout.connect = .ok graph) ↔
      EndsCovered listing layout.groups := by
  have located (row : Row) (index : Nat) :
      layout.owners.locate row = .ok index ↔
        Group.Covers layout.groups index row.position :=
    (separated positioned laid).locate_eq_ok_iff row index
  have links :
      (∃ edges, layout.linkEdges layout.owners = .ok edges) ↔
        EndsCovered listing layout.groups := by
    simp only [linkEdges, exists_mapM_eq_ok_iff, mem_links_iff positioned laid,
      Edge.ofLink, exists_bind_eq_ok_iff, located]
    constructor
    · intro covered source target cuts leads
      rcases covered ⟨source, target, cuts⟩ leads with
        ⟨first, sourceCovers, second, covers, -⟩
      exact ⟨⟨first, sourceCovers⟩, ⟨second, covers⟩⟩
    · intro covered link leads
      rcases covered link.source link.target link.cuts leads with
        ⟨⟨first, sourceCovers⟩, ⟨second, covers⟩⟩
      exact ⟨first, sourceCovers, second, covers, _, rfl⟩
  have protections (covered : EndsCovered listing layout.groups) :
      ∃ protections, layout.protections layout.owners = .ok protections := by
    rcases exists_origin laid with ⟨guards, origin⟩
    rw [Layout.protections, exists_mapM_eq_ok_iff]
    intro range rangeMember
    rw [Protection.ofRange, exists_bind_eq_ok_iff]
    simp only [pure, Except.pure, Except.ok.injEq, exists_eq', and_true]
    rw [exists_mapM_eq_ok_iff]
    intro handler handlerMember
    rw [origin.ranges] at rangeMember
    rcases (Index.exists_mem_guardedRanges_iff guards handler fun _ _ =>
      True).mp
      ⟨range, rangeMember, handlerMember, trivial⟩ with
        ⟨guard, guardMember, rfl, -⟩
    have hasGuard := (origin.hasGuard_iff positioned guard).mp guardMember
    simp only [located]
    exact (covered _ _ _ (.handle hasGuard
      (listing.isLastProtected_lastProtected positioned _ _))).2
  rw [← links, connect, exists_bind_eq_ok_iff]
  constructor
  · rintro ⟨edges, linked, -⟩
    exact ⟨edges, linked⟩
  · rintro ⟨edges, linked⟩
    rcases protections (links.mp ⟨edges, linked⟩) with ⟨found, guarded⟩
    exact ⟨edges, linked, exists_bind_eq_ok_iff.mpr ⟨found, guarded, _, rfl⟩⟩

/-- If anything is executed, only rows of tables can lie outside every group. -/
theorem endsCovered_iff_of_executed
    (positioned : listing.Positioned)
    (laid : ofListing listing = .ok layout)
    (executed : ∃ row ∈ listing.body, row.isCode = true) :
    EndsCovered listing layout.groups ↔
      ∀ row, listing.UnnamedEnd row → row.inTable = true →
        listing.InBlockSpan row.position := by
  have span := exists_covers_iff_inBlockSpan positioned laid executed
  constructor
  · intro covered row isEnd _
    rw [← span]
    rcases isEnd.exists_leads positioned with
      ⟨target, cuts, leads⟩ | ⟨source, cuts, leads⟩
    · exact (covered row target cuts leads).1
    · exact (covered source row cuts leads).2
  · intro ends source target cuts leads
    have covered (row : Row)
        (place : row ∈ listing.body ∨ listing.UnnamedEnd row) :
        ∃ index, Group.Covers layout.groups index row.position := by
      by_cases inTable : row.inTable = true
      · rcases place with member | isEnd
        · simp [inTable] at member
        · exact (span row.position).mpr (ends row isEnd inTable)
      · have member : row ∈ listing.body := by
          rcases place with member | isEnd
          · exact member
          · exact (listing.mem_body_iff row).mpr
              ⟨isEnd.mem, by simpa using inTable⟩
        rcases exists_holds laid executed member with ⟨index, holds⟩
        exact ⟨index, (separated positioned laid).covers_of_holds holds⟩
    exact ⟨covered source leads.source_mem_body_or_unnamedEnd,
      covered target leads.target_mem_body_or_unnamedEnd⟩

/--
If nothing is executed, there is no group, and only directives have links.
-/
theorem endsCovered_iff_of_silent
    (positioned : listing.Positioned)
    (laid : ofListing listing = .ok layout)
    (silent : ∀ row ∈ listing.body, row.isCode = false) :
    EndsCovered listing layout.groups ↔ ∀ guard, ¬listing.HasGuard guard := by
  have uncovered
      (index position : Nat) : ¬Group.Covers layout.groups index position := by
    rintro ⟨group, found, -⟩
    rcases (separated positioned laid).executed group
        (List.mem_of_getElem? found) with
      ⟨row, inside, code⟩
    simp [silent row (mem_body_of_holds laid ⟨group, found, inside⟩)] at code
  constructor
  · intro covered guard guards
    rcases (covered _ _ _ (.handle guards
      (listing.isLastProtected_lastProtected positioned _ _))).2 with
        ⟨index, covers⟩
    exact uncovered index _ covers
  · intro unguarded source target cuts leads
    cases leads with
    | branch member branches =>
        have code : source.isCode = true := by
          cases branches with
          | jump kind => exact kind.elim Row.isCode_of_kind Row.isCode_of_kind
          | fallThrough kind => exact Row.isCode_of_kind kind
          | switch kind => exact Row.isCode_of_kind kind
        simp [silent source member] at code
    | leave guards => exact (unguarded _ guards).elim
    | handle guards => exact (unguarded _ guards).elim

end Layout

/-! ## Builds without a fault -/

theorem Listing.exists_hasGuard_iff
    {listing : Listing}
    (directives : ∀ row ∈ listing, ∀ directive,
      row.instruction = .guard directive →
      listing.ResolvesDirective directive) :
    (∃ guard, listing.HasGuard guard) ↔
      ∃ row ∈ listing, ∃ directive, row.instruction = .guard directive := by
  constructor
  · rintro ⟨guard, row, member, directive, written, -⟩
    exact ⟨row, member, directive, written⟩
  · rintro ⟨row, member, directive, written⟩
    rcases directives row member directive written with
      ⟨first, last, handler, firstResolves, lastResolves, handlerResolves, -⟩
    exact ⟨⟨first, last, handler⟩, row, member, directive, written,
      firstResolves, lastResolves, handlerResolves⟩

/-- A graph can be built exactly from a resolvable listing. -/
theorem Graph.exists_build_iff_resolvable
    {listing : Listing}
    (positioned : listing.Positioned) :
    (∃ graph, Graph.build listing = .ok graph) ↔ listing.Resolvable := by
  rw [Graph.build, exists_bind_eq_ok_iff]
  constructor
  · rintro ⟨layout, laid, connected⟩
    rcases (Layout.exists_ofListing_iff positioned).mp ⟨layout, laid⟩ with
      ⟨branches, directives⟩
    rw [Layout.exists_connect_iff positioned laid] at connected
    refine ⟨fun row member => (branches row member).1,
      fun row member => (branches row member).2,
      directives, ?_, ?_⟩
    · intro executed
      exact (Layout.endsCovered_iff_of_executed positioned laid executed).mp
        connected
    · intro silent row member directive written
      rcases (Listing.exists_hasGuard_iff directives).mpr
          ⟨row, member, directive, written⟩ with
        ⟨guard, guards⟩
      exact (Layout.endsCovered_iff_of_silent positioned laid silent).mp
        connected guard guards
  · intro resolvable
    rcases (Layout.exists_ofListing_iff positioned).mpr ⟨fun row member =>
      ⟨resolvable.jumps row member, resolvable.switches row member⟩,
      resolvable.directives⟩ with
      ⟨layout, laid⟩
    refine ⟨layout, laid, (Layout.exists_connect_iff positioned laid).mpr ?_⟩
    by_cases executed : ∃ row ∈ listing.body, row.isCode = true
    · exact (Layout.endsCovered_iff_of_executed positioned laid executed).mpr
        (resolvable.ends executed)
    · have silent : ∀ row ∈ listing.body, row.isCode = false := by
        intro row member
        by_contra code
        exact executed ⟨row, member, by simpa using code⟩
      rw [Layout.endsCovered_iff_of_silent positioned laid silent]
      intro guard guards
      rcases (Listing.exists_hasGuard_iff resolvable.directives).mp
          ⟨guard, guards⟩ with
        ⟨row, member, directive, written⟩
      exact resolvable.unguarded silent row member directive written

end Flow

namespace Method

open SmaliFlow.Flow

theorem fault_build_eq_none_iff (method : Method) (listing : Listing) :
    (method.build listing).fault = none ↔ ∃ graph,
      Graph.build listing = .ok graph := by
  unfold build
  cases Graph.build listing <;> simp [clear]

theorem buildAnswer?_eq_ok_iff
    (method : Method)
    {lines : Array Line}
    {listing : Listing}
    (listed : Listing.ofIds? lines method.lines = some listing) :
    method.buildAnswer? lines = some (.ok ()) ↔ ∃ graph,
      Graph.build listing = .ok graph := by
  rw [buildAnswer?, listed, Option.map_some, Option.some.injEq]
  cases Graph.build listing <;> simp

/--
A method whose lines are in range can be built; the build answers without a
fault, and leaves none in the method, exactly if the listing is resolvable.
-/
theorem build?_sound_iff_resolvable
    {lines : Array Line}
    {method : Method}
    (inside : ∀ id ∈ method.lines, id < lines.size) :
    ∃ listing built, Listing.ofIds? lines method.lines = some listing ∧
      method.build? lines = some built ∧
      (method.buildAnswer? lines = some (.ok ()) ↔ listing.Resolvable) ∧
      (built.fault = none ↔ listing.Resolvable) := by
  rcases Listing.exists_ofIds? inside with ⟨listing, listed⟩
  have buildable :=
    Graph.exists_build_iff_resolvable (Listing.positioned_of_ofIds? listed)
  refine ⟨listing, method.build listing, listed, ?_, ?_, ?_⟩
  · rw [build?, listed, Option.map_some]
  · rw [buildAnswer?_eq_ok_iff method listed, buildable]
  · rw [fault_build_eq_none_iff, buildable]

/-- A small method with a table behind a conditional branch, inside a block. -/
def branchBeforeTable : Array Line :=
  Line.ofTexts
    ["if-eqz v0, :a", ".packed-switch 0x0", ".end packed-switch", "nop", ":a",
      "return-void"]

/-- A small method that ends with a table behind a conditional branch. -/
def branchBeforeLastTable : Array Line :=
  Line.ofTexts ["nop", ":a", "if-eqz v0, :a", ".packed-switch 0x0",
    ".end packed-switch"]

/--
A branch may fall through into a table if its block goes on behind the table,
but not if the table is the last thing in the method.
-/
theorem build?_of_branchBeforeTable :
    (∃ listing, Listing.ofIds? branchBeforeTable (List.range 6) = some listing ∧
      listing.Resolvable ∧ listing.InBlockSpan 1) ∧
    ∃ listing,
      Listing.ofIds? branchBeforeLastTable (List.range 5) = some listing ∧
      ¬listing.Resolvable := by
  constructor
  · let method : Method := { declare 0 [] with lines := List.range 6 }
    have sound :
        (method.build? branchBeforeTable).map Method.fault = some none := by
      decide +kernel
    have inside : ∀ id ∈ method.lines, id < branchBeforeTable.size := by
      decide
    rcases build?_sound_iff_resolvable inside with
      ⟨listing, built, listed, build, -, iff⟩
    rw [build, Option.map_some, Option.some.injEq, iff] at sound
    refine ⟨listing, listed, sound, ?_⟩
    let branch :=
      Listing.rowOf none 0 0 (Line.ofText (Bytes.ofString "if-eqz v0, :a") 1)
    let opener :=
      Listing.rowOf none 1 1 (Line.ofText
        (Bytes.ofString ".packed-switch 0x0") 2)
    have members :
        (Listing.ofIds? branchBeforeTable method.lines).map (fun listing =>
          (decide (branch ∈ listing.body), decide (opener ∈ listing))) =
            some (true, true) := by
      decide +kernel
    rw [listed, Option.map_some, Option.some.injEq, Prod.mk.injEq,
      decide_eq_true_eq, decide_eq_true_eq] at members
    have falls : listing.UnnamedEnd opener :=
      .fallThrough members.1 (by decide +kernel) members.2 rfl
    exact sound.ends ⟨branch, members.1, by decide +kernel⟩ opener falls
      (by decide +kernel)
  · let method : Method := { declare 0 [] with lines := List.range 5 }
    have faulty :
        (method.build? branchBeforeLastTable).map
          (fun built => built.fault.isNone) =
          some false := by
      decide +kernel
    have inside : ∀ id ∈ method.lines, id < branchBeforeLastTable.size := by
      decide
    rcases build?_sound_iff_resolvable inside with
      ⟨listing, built, listed, build, -, iff⟩
    rw [build, Option.map_some, Option.some.injEq] at faulty
    refine ⟨listing, listed, ?_⟩
    rw [← iff]
    intro sound
    simp [sound] at faulty

end Method

end SmaliFlow
