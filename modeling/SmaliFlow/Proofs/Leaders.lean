import SmaliFlow.Proofs.Boundaries

/-!
# Blocks begin at leaders

A leader is a row at which a block may begin: the row right behind a goto, a row
that a jump, a switch or an exception handler names, and the row where control
goes on behind a guarded range.  The leaders are stated here without the links
from which the cuts are made.

The main statement has two halves.  Two instructions lie in different blocks
exactly if a leader outside every table stands behind the first one, up to the
second.  And a block is entered at its beginning only: no instruction stands
before a named row in its block, unless nothing is executed from that row on.
-/

namespace SmaliFlow.Flow

namespace Listing

variable {listing : Listing}

/-- A jump, a switch or a directive names the row. -/
inductive Named (listing : Listing) (row : Row) : Prop where
  /-- A goto or a conditional branch outside every table leads to the row. -/
  | jump
      {source : Row}
      (member : source ∈ listing.body)
      (kind : source.kind = .code .goto ∨ source.kind = .code .branch)
      (jumps : listing.JumpsTo source row) :
      Named listing row
  /-- The table of a switch outside every table leads to the row. -/
  | switch
      {source : Row}
      (member : source ∈ listing.body)
      (kind : source.kind = .code .switch)
      (switches : listing.SwitchesTo source row) :
      Named listing row
  /-- A guarded range has its handler in the row. -/
  | handler
      {guard : Guard}
      (guards : listing.HasGuard guard)
      (handles : guard.handler = row) :
      Named listing row

/-- A row at which a block may begin. -/
inductive Leader (listing : Listing) (row : Row) : Prop where
  | named (names : listing.Named row) :
      Leader listing row
  /-- The row stands right behind a goto that is outside every table. -/
  | behindGoto
      {goto : Row}
      (member : goto ∈ listing.body)
      (kind : goto.kind = .code .goto)
      (next : row.position = goto.position + 1) :
      Leader listing row
  /-- Control goes on at the row behind a guarded range. -/
  | continuation
      {guard : Guard}
      (guards : listing.HasGuard guard)
      (continues : listing.Continues guard.last row) :
      Leader listing row

theorem Named.mem_body {row : Row} (named : listing.Named row) :
    row ∈ listing.body := by
  cases named with
  | jump _ _ jumps => exact jumps.mem_body
  | switch _ _ switches => exact switches.mem_body
  | handler guards handles => exact handles ▸ guards.handler_mem_body

theorem Named.exists_leads
    (positioned : listing.Positioned)
    {row : Row}
    (named : listing.Named row) :
    ∃ source, listing.Leads source row true := by
  cases named with
  | jump member kind jumps => exact ⟨_, .branch member (.jump kind jumps)⟩
  | switch member kind switches =>
      exact ⟨_, .branch member (.switch kind switches)⟩
  | handler guards handles =>
      subst handles
      exact ⟨_, .handle guards (listing.isLastProtected_lastProtected
        positioned _ _)⟩

/-- The rows are cut exactly before the leaders. -/
theorem cut_iff_leader (positioned : listing.Positioned) (row : Row) :
    listing.Cut row ↔ listing.Leader row := by
  constructor
  · rintro (⟨goto, member, kind, next⟩ | ⟨source, leads⟩)
    · exact .behindGoto member kind next
    · cases leads with
      | branch member branches =>
          cases branches with
          | jump kind jumps => exact .named (.jump member kind jumps)
          | switch kind switches => exact .named (.switch member kind switches)
      | leave guards _ continues => exact .continuation guards continues
      | handle guards => exact .named (.handler guards rfl)
  · intro leader
    cases leader with
    | named named => exact Or.inr (named.exists_leads positioned)
    | behindGoto member kind next => exact Or.inl ⟨_, member, kind, next⟩
    | continuation guards continues =>
        exact Or.inr
          ⟨_, .leave guards (listing.isLastProtected_lastProtected positioned _
            _) continues⟩

end Listing

namespace Graph

variable {lines : Array Line} {ids : List Nat} {listing : Listing}
  {graph : Graph}

/-- The two rows lie in different blocks. -/
def Separates (graph : Graph) (first second : Row) : Prop :=
  ∃ (index other : Nat) (left right : Block),
    graph.blocks[index]? = some left ∧ first ∈ left.rows ∧
    graph.blocks[other]? = some right ∧ second ∈ right.rows ∧ index ≠ other

/-- Instructions that share no block lie in different ones. -/
theorem separates_iff
    (positioned : listing.Positioned)
    (built : Graph.build listing = .ok graph)
    {first second : Row}
    (firstMember : first ∈ listing.body)
    (firstCode : first.isCode = true)
    (secondMember : second ∈ listing.body)
    (secondCode : second.isCode = true) :
    graph.Separates first second ↔
      ¬∃ block ∈ graph.blocks, first ∈ block.rows ∧ second ∈ block.rows := by
  constructor
  · rintro ⟨index, other, left, right, leftFound, firstInside, rightFound,
      secondInside, apart⟩
      ⟨block, blockMember, firstHeld, secondHeld⟩
    rcases List.mem_iff_getElem?.mp blockMember with ⟨place, found⟩
    apply apart
    calc
      index = place :=
        index_unique positioned built leftFound found firstInside firstHeld
      _ = other :=
        index_unique positioned built found rightFound secondHeld secondInside
  · intro unshared
    rcases exists_block_of_code built firstMember firstCode with
      ⟨index, left, leftFound, firstInside⟩
    rcases exists_block_of_code built secondMember secondCode with
      ⟨other, right, rightFound, secondInside⟩
    refine ⟨index, other, left, right, leftFound, firstInside, rightFound,
      secondInside, ?_⟩
    rintro rfl
    rw [leftFound, Option.some.injEq] at rightFound
    subst rightFound
    exact unshared ⟨left, List.mem_of_getElem? leftFound, firstInside,
      secondInside⟩

/--
Two instructions lie in different blocks exactly if a leader stands between
them.
-/
theorem separates_iff_exists_leader
    (positioned : listing.Positioned)
    (built : Graph.build listing = .ok graph)
    {first second : Row}
    (firstMember : first ∈ listing.body)
    (firstCode : first.isCode = true)
    (secondMember : second ∈ listing.body)
    (secondCode : second.isCode = true)
    (order : first.position < second.position) :
    graph.Separates first second ↔
      ∃ row ∈ listing.body, first.position < row.position ∧
        row.position ≤ second.position ∧ listing.Leader row := by
  rw [separates_iff positioned built firstMember firstCode
    secondMember secondCode,
    share_block_iff positioned built firstMember firstCode secondMember
      secondCode order]
  simp only [Listing.cut_iff_leader positioned]
  push Not
  rfl

/-- A named row lies in a block. -/
theorem exists_block_of_named
    (positioned : listing.Positioned)
    (built : Graph.build listing = .ok graph)
    {row : Row}
    (named : listing.Named row) :
    ∃ (index : Nat) (block : Block), graph.blocks[index]? = some block ∧
      row ∈ block.rows := by
  rcases nonempty_assembly built with ⟨assembly⟩
  rcases named.exists_leads positioned with ⟨source, leads⟩
  have link :=
    (Layout.mem_links_iff positioned assembly.laid ⟨source, row, true⟩).mpr
      leads
  rcases exists_of_mapM_eq_ok assembly.linked link with ⟨edge, edgeMember, -⟩
  rcases (assembly.mem_linkEdges_iff positioned edge).mp edgeMember with
    ⟨_, _, _, -, covers, -⟩
  rw [← assembly.map_rows_blocks] at covers
  rcases exists_block_of_covers covers with ⟨block, found⟩
  apply exists_block_of_mem_flatten
  rw [flatten_groups_of_mem_blocks positioned built
    (List.mem_of_getElem? found)]
  exact named.mem_body

/--
No instruction stands before a named row in its block, if one follows the row at
all.
-/
theorem position_le_of_named
    (positioned : listing.Positioned)
    (built : Graph.build listing = .ok graph)
    {label : Row}
    (named : listing.Named label)
    {block : Block}
    (found : block ∈ graph.blocks)
    (inside : label ∈ block.rows)
    {later : Row}
    (laterMember : later ∈ listing.body)
    (laterCode : later.isCode = true)
    (after : label.position ≤ later.position)
    {row : Row}
    (rowInside : row ∈ block.rows)
    (code : row.isCode = true) :
    label.position ≤ row.position := by
  by_contra before
  rcases Listing.exists_firstCode positioned laterMember laterCode after with
    ⟨target, first⟩
  rcases named.exists_leads positioned with ⟨source, leads⟩
  rcases exists_block_of_cut positioned built leads named.mem_body first with
    ⟨index, holder, holderFound, labelHeld, targetHeld⟩
  rcases List.mem_iff_getElem?.mp found with ⟨place, foundAt⟩
  have same :=
    index_unique positioned built holderFound foundAt labelHeld inside
  rw [same, foundAt, Option.some.injEq] at holderFound
  subst holderFound
  -- The row and the first instruction behind the label share a block across the
  -- label.
  have reach := first.after
  have uncut :=
    (share_block_iff positioned built
      (mem_body_of_mem_rows built found rowInside)
      code first.member first.code (by omega)).mp
        ⟨block, found, rowInside, targetHeld⟩
  exact uncut label named.mem_body (by omega) reach (Or.inr ⟨source, leads⟩)

/--
Blocks are cut at the leaders and nowhere else, and control enters a block at
its beginning: every named row lies in one block, and either no instruction of
that block stands before it or nothing outside the tables is executed from it
on.
-/
theorem blocks_cut_at_leaders
    (listed : Listing.ofIds? lines ids = some listing)
    (built : Graph.build listing = .ok graph) :
    (∀ first ∈ listing.body, ∀ second ∈ listing.body, first.isCode = true →
      second.isCode = true → first.position < second.position →
      (graph.Separates first second ↔
        ∃ row ∈ listing.body, first.position < row.position ∧
          row.position ≤ second.position ∧ listing.Leader row)) ∧
    ∀ label, listing.Named label →
      ∃ (index : Nat) (block : Block), graph.blocks[index]? = some block ∧
        label ∈ block.rows ∧
        (∀ (other : Nat) (holder : Block), graph.blocks[other]? = some holder →
          label ∈ holder.rows → other = index) ∧
        ((∀ row ∈ block.rows,
          row.isCode = true → label.position ≤ row.position) ∨
          ∀ row ∈ listing.body,
          row.isCode = true → row.position < label.position) := by
  have positioned := Listing.positioned_of_ofIds? listed
  constructor
  · intro first firstMember second secondMember firstCode secondCode order
    exact separates_iff_exists_leader positioned built firstMember firstCode
      secondMember
      secondCode order
  · intro label named
    rcases exists_block_of_named positioned built named with
      ⟨index, block, found, inside⟩
    refine ⟨index, block, found, inside, ?_, ?_⟩
    · intro other holder holderFound held
      exact index_unique positioned built holderFound found held inside
    · by_cases executed : ∃ later ∈ listing.body, later.isCode = true ∧
          label.position ≤ later.position
      · rcases executed with ⟨later, laterMember, laterCode, after⟩
        left
        intro row rowInside code
        exact position_le_of_named positioned built named
          (List.mem_of_getElem? found) inside
          laterMember laterCode after rowInside code
      · right
        intro row member code
        by_contra behind
        exact executed ⟨row, member, code, Nat.le_of_not_lt behind⟩

/--
The guarded range of the small method is left at a leader, and its label begins
a block.
-/
theorem guardedBranch_cut_behind_range :
    ∃ (graph : Graph) (first second label : Row),
      Listing.ofIds? guardedBranch (List.range 12) =
        some Listing.guardedBranch ∧
      Graph.build Listing.guardedBranch = .ok graph ∧
      first.position = 3 ∧ second.position = 6 ∧ graph.Separates first second ∧
      (∃ row ∈ Listing.guardedBranch.body, 3 < row.position ∧ row.position ≤ 6 ∧
        Listing.guardedBranch.Leader row) ∧
      Listing.guardedBranch.Named label ∧
      ∃ (index : Nat) (block : Block), graph.blocks[index]? = some block ∧
        label ∈ block.rows ∧
        ∀ row ∈ block.rows,
          row.isCode = true → label.position ≤ row.position := by
  let first := Listing.rowOf none 3 3 (Line.ofText (Bytes.ofString "nop") 4)
  let second :=
    Listing.rowOf none 6 6 (Line.ofText (Bytes.ofString "goto :cond_0") 7)
  let label :=
    Listing.rowOf none 9 9 (Line.ofText (Bytes.ofString ":cond_0") 10)
  let last := Listing.rowOf none 10 10
    (Line.ofText (Bytes.ofString "return-void") 11)
  have run :
      ((Graph.ofIds? guardedBranch (List.range 12)).bind fun graph =>
        graph.blocks[0]?.bind fun left => graph.blocks[1]?.map fun right =>
          (decide (first ∈ left.rows), decide (second ∈ right.rows))) =
        some (true, true) := by
    decide +kernel
  have listed :
      Listing.ofIds? guardedBranch (List.range 12) =
        some Listing.guardedBranch := by
    decide +kernel
  rcases Option.bind_eq_some_iff.mp run with ⟨graph, graphFound, rest⟩
  rcases Option.bind_eq_some_iff.mp rest with ⟨left, leftFound, others⟩
  rcases Option.map_eq_some_iff.mp others with ⟨right, rightFound, held⟩
  simp only [Prod.mk.injEq, decide_eq_true_eq] at held
  rcases ofIds?_eq_some_iff.mp graphFound with ⟨listing, otherListed, built⟩
  rw [listed, Option.some.injEq] at otherListed
  subst otherListed
  have separates : graph.Separates first second :=
    ⟨0, 1, left, right, leftFound, held.1, rightFound, held.2, by decide⟩
  have resolves :
      Listing.guardedBranch.Resolves (Bytes.ofString ":cond_0") label :=
    (Listing.label?_eq_some_iff (Listing.positioned_of_ofIds? listed) _ _).mp
      (by decide +kernel)
  have secondMember : second ∈ Listing.guardedBranch.body := by decide +kernel
  have named : Listing.guardedBranch.Named label :=
    .jump secondMember (by decide +kernel)
      ⟨Bytes.ofString ":cond_0", by decide +kernel, resolves⟩
  rcases blocks_cut_at_leaders listed built with ⟨cut, entered⟩
  rcases entered label named with ⟨index, block, found, inside, -, begins⟩
  refine ⟨graph, first, second, label, listed, built, rfl, rfl, separates, ?_,
    named, index, block, found, inside, begins.resolve_right ?_⟩
  · exact (cut first (by decide +kernel) second secondMember (by decide +kernel)
      (by decide +kernel) (by decide)).mp separates
  · intro silent
    have before := silent last (by decide +kernel) (by decide +kernel)
    exact absurd before (by decide)

end Graph

end SmaliFlow.Flow
