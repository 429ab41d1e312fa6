import SmaliFlow.Proofs.Graph

/-!
# Passages between blocks

Control passes between two blocks for one of six reasons, which this module
states without mentioning how the graph is built.  The main statement is that
the successors of a block are exactly the blocks that control passes to: no
passage is missed and none is added, whatever tables, ranges and directives the
method holds.
-/

namespace SmaliFlow.Flow

/-- Control passes from one block to another. -/
inductive Listing.Passage (listing : Listing) (source target : Block) :
    Prop where
  /-- A goto or a conditional branch names a label in the target. -/
  | jump
      {row label : Row}
      (member : row ∈ source.rows)
      (kind : row.kind = .code .goto ∨ row.kind = .code .branch)
      (jumps : listing.JumpsTo row label)
      (lands : label ∈ target.rows) :
      Passage listing source target
  /-- The row after a conditional branch lies in the span of the target. -/
  | fallThrough
      {row : Row}
      (member : row ∈ source.rows)
      (kind : row.kind = .code .branch)
      (inside : row.position + 1 < listing.length)
      (lands : (Span.ofGroup target.rows).covers (row.position + 1) = true) :
      Passage listing source target
  /-- The table of a switch names a label in the target. -/
  | switch
      {row label : Row}
      (member : row ∈ source.rows)
      (kind : row.kind = .code .switch)
      (switches : listing.SwitchesTo row label)
      (lands : label ∈ target.rows) :
      Passage listing source target
  /-- A guarded range ends in the source, and control goes on in the target. -/
  | leave
      {guard : Guard}
      {last next : Row}
      (guards : listing.HasGuard guard)
      (isLast : listing.IsLastProtected guard.first guard.last last)
      (within : (Span.ofGroup source.rows).covers last.position = true)
      (continues : listing.Continues guard.last next)
      (lands : (Span.ofGroup target.rows).covers next.position = true) :
      Passage listing source target
  /-- A guarded range meets the source, and its handler stands in the target. -/
  | handle
      {guard : Guard}
      {last : Row}
      {position : Nat}
      (guards : listing.HasGuard guard)
      (isLast : listing.IsLastProtected guard.first guard.last last)
      (after : guard.first.position ≤ position)
      (before : position ≤ last.position)
      (within : (Span.ofGroup source.rows).covers position = true)
      (lands : guard.handler ∈ target.rows) :
      Passage listing source target
  /--
  The target follows the source, whose last instruction does not end the flow.
  -/
  | next
      {row : Row}
      (adjacent : target.index = source.index + 1)
      (isLast : source.rows.IsLastCode row)
      (goesOn : row.GoesOn) :
      Passage listing source target

namespace Graph

variable {listing : Listing} {graph : Graph}

theorem range_ordered
    (positioned : listing.Positioned)
    (built : Graph.build listing = .ok graph)
    {guard : Guard}
    {last : Row}
    (guards : listing.HasGuard guard)
    (isLast : listing.IsLastProtected guard.first guard.last last) :
    guard.first.position ≤ last.position := by
  rcases nonempty_assembly built with ⟨assembly⟩
  exact isLast.first_le (assembly.range_ordered positioned guards)

/-! ## Passages and successors -/

variable {index other : Nat} {source target : Block}

theorem passage_of_leads
    (positioned : listing.Positioned)
    (built : Graph.build listing = .ok graph)
    (sourceFound : graph.blocks[index]? = some source)
    (targetFound : graph.blocks[other]? = some target)
    {left right : Row}
    {cuts : Bool}
    (leads : listing.Leads left right cuts)
    (leftCovered : Group.Covers graph.groups index left.position)
    (rightCovered : Group.Covers graph.groups other right.position) :
    listing.Passage source target := by
  have holds {row : Row} (member : row ∈ listing.body) :=
    covers_iff_mem_rows positioned built sourceFound member
  have lands {row : Row} (member : row ∈ listing.body) :=
    covers_iff_mem_rows positioned built targetFound member
  cases leads with
  | branch member branches =>
      have inside := (holds member).mp leftCovered
      cases branches with
      | jump kind jumps =>
          exact .jump inside kind jumps ((lands jumps.mem_body).mp rightCovered)
      | fallThrough kind rightMember next =>
          rw [covers_groups_iff targetFound, next] at rightCovered
          refine .fallThrough inside kind ?_ rightCovered
          rw [← next]
          exact (List.getElem?_eq_some_iff.mp
            (positioned.getElem?_position rightMember)).1
      | switch kind switches =>
          exact .switch inside kind switches
            ((lands switches.mem_body).mp rightCovered)
  | leave guards isLast continues =>
      rw [covers_groups_iff sourceFound] at leftCovered
      rw [covers_groups_iff targetFound] at rightCovered
      exact .leave guards isLast leftCovered continues rightCovered
  | handle guards isLast =>
      -- The last protected row is itself a position of the range.
      rw [covers_groups_iff sourceFound] at leftCovered
      exact .handle guards isLast (range_ordered positioned built guards isLast)
        (Nat.le_refl _) leftCovered
          ((lands guards.handler_mem_body).mp rightCovered)

theorem mem_successors_of_passage
    (positioned : listing.Positioned)
    (built : Graph.build listing = .ok graph)
    (sourceFound : graph.blocks[index]? = some source)
    (targetFound : graph.blocks[other]? = some target)
    (passage : listing.Passage source target) :
    other ∈ source.successors := by
  have separated := separated_groups positioned built
  have holds {row : Row} (member : row ∈ source.rows) :
      Group.Covers graph.groups index row.position :=
    separated.covers_of_holds ((holds_groups_iff sourceFound row).mpr member)
  have lands {row : Row} (member : row ∈ target.rows) :
      Group.Covers graph.groups other row.position :=
    separated.covers_of_holds ((holds_groups_iff targetFound row).mpr member)
  have body {row : Row} (member : row ∈ source.rows) : row ∈ listing.body :=
    mem_body_of_mem_rows built (List.mem_of_getElem? sourceFound) member
  rw [mem_successors_iff positioned built sourceFound]
  cases passage with
  | jump member kind jumps landed =>
      exact Or.inl ⟨_, _, _, .branch (body member) (.jump kind jumps),
        holds member, lands landed⟩
  | @fallThrough row member kind inside landed =>
      have next := positioned _ _ (List.getElem?_eq_getElem inside)
      have covered := (covers_groups_iff targetFound _).mpr landed
      rw [← next] at covered
      exact Or.inl ⟨row, _, _,
        .branch (body member) (.fallThrough kind
        (List.getElem_mem inside) next),
        holds member, covered⟩
  | switch member kind switches landed =>
      exact Or.inl ⟨_, _, _, .branch (body member) (.switch kind switches),
        holds member, lands landed⟩
  | leave guards isLast within continues landed =>
      exact Or.inl ⟨_, _, _, .leave guards isLast continues,
        (covers_groups_iff sourceFound _).mpr within,
        (covers_groups_iff targetFound _).mpr landed⟩
  | handle guards isLast after before within landed =>
      have ordered := range_ordered positioned built guards isLast
      refine Or.inr (Or.inl ⟨_, _, guards, isLast, ?_, lands landed⟩)
      rw [separated.meets_iff_covers index ordered]
      exact ⟨_, after, before, (covers_groups_iff sourceFound _).mpr within⟩
  | next adjacent isLast goesOn =>
      rw [index_eq built targetFound, index_eq built sourceFound] at adjacent
      have inside : other < graph.blocks.length :=
        (List.getElem?_eq_some_iff.mp targetFound).1
      exact Or.inr (Or.inr ⟨adjacent, inside, _, isLast, goesOn⟩)

theorem exists_block_of_covers
    {position : Nat}
    (covers : Group.Covers graph.groups other position) :
    ∃ target, graph.blocks[other]? = some target := by
  rcases covers with ⟨group, found, -⟩
  rw [groups, List.getElem?_map, Option.map_eq_some_iff] at found
  rcases found with ⟨target, targetFound, -⟩
  exact ⟨target, targetFound⟩

theorem exists_passage_of_mem_successors
    (positioned : listing.Positioned)
    (built : Graph.build listing = .ok graph)
    (sourceFound : graph.blocks[index]? = some source)
    (member : other ∈ source.successors) :
    ∃ target,
      graph.blocks[other]? = some target ∧ listing.Passage source target := by
  have separated := separated_groups positioned built
  rcases (mem_successors_iff positioned built sourceFound other).mp member with
    ⟨left, right, cuts, leads, leftCovered, rightCovered⟩ |
    ⟨guard, last, guards, isLast, meets, covered⟩ |
    ⟨adjacent, inside, row, isLast, goesOn⟩
  · rcases exists_block_of_covers rightCovered with ⟨target, targetFound⟩
    exact ⟨target, targetFound,
      passage_of_leads positioned built sourceFound targetFound
        leads leftCovered
        rightCovered⟩
  · rcases exists_block_of_covers covered with ⟨target, targetFound⟩
    refine ⟨target, targetFound, ?_⟩
    have ordered := range_ordered positioned built guards isLast
    rcases (separated.meets_iff_covers index ordered).mp meets with
      ⟨position, after, before, within⟩
    exact .handle guards isLast after before
      ((covers_groups_iff sourceFound _).mp within)
      ((covers_iff_mem_rows positioned built targetFound
        guards.handler_mem_body).mp covered)
  · refine ⟨_, List.getElem?_eq_getElem inside, ?_⟩
    apply Listing.Passage.next _ isLast goesOn
    rw [index_eq built (List.getElem?_eq_getElem inside),
      index_eq built sourceFound]
    exact adjacent

/--
The successors of a block are the blocks that control passes to: every edge has
one of the six reasons, and each of them gives an edge.
-/
theorem mem_successors_iff_passage
    {lines : Array Line}
    {ids : List Nat}
    (listed : Listing.ofIds? lines ids = some listing)
    (built : Graph.build listing = .ok graph)
    (found : graph.blocks[index]? = some source)
    (other : Nat) :
    other ∈ source.successors ↔
      ∃ target,
        graph.blocks[other]? = some target ∧ listing.Passage source target := by
  have positioned := Listing.positioned_of_ofIds? listed
  constructor
  · exact exists_passage_of_mem_successors positioned built found
  · rintro ⟨target, targetFound, passage⟩
    exact mem_successors_of_passage positioned built found targetFound passage

/-- A small method whose first block branches, is guarded and goes on. -/
def guardedBranch : Array Line :=
  Line.ofTexts
    [".method public a()V", "if-eqz v0, :cond_0", ":try_start_0", "nop",
      ":try_end_0", ".catchall \x7b:try_start_0 .. :try_end_0\x7d :catch_0",
      "goto :cond_0", ":catch_0", "throw v0", ":cond_0", "return-void",
      ".end method"]

/--
A block that branches, falls through, is guarded and goes on has all these
successors.
-/
theorem successors_of_guarded_branch :
    ∃ listing graph source,
      Listing.ofIds? guardedBranch (List.range 12) = some listing ∧
      Graph.build listing = .ok graph ∧ graph.blocks[0]? = some source ∧
      ∀ other, other ∈ [3, 0, 1, 2] ↔
        ∃ target,
          graph.blocks[other]? = some target ∧
            listing.Passage source target := by
  have run :
      ((Graph.ofIds? guardedBranch (List.range 12)).bind fun graph =>
        graph.blocks[0]?.map Block.successors) = some [3, 0, 1, 2] := by
    decide +kernel
  rcases Option.bind_eq_some_iff.mp run with ⟨graph, found, rest⟩
  rcases Option.map_eq_some_iff.mp rest with ⟨source, sourceFound, successors⟩
  rcases ofIds?_eq_some_iff.mp found with ⟨listing, listed, built⟩
  refine ⟨listing, graph, source, listed, built, sourceFound, ?_⟩
  intro other
  rw [← successors]
  exact mem_successors_iff_passage listed built sourceFound other

end Graph

end SmaliFlow.Flow
