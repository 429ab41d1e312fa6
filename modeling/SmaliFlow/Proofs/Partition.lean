import SmaliFlow.Proofs.Graph

/-!
# Blocks partition the body of a method

Put one after another, the blocks of a method give back its lines outside every
table, in order and with repetitions.  A method that executes nothing has no
blocks; otherwise each block executes something, and the blocks are numbered by
their places.
-/

namespace SmaliFlow.Flow.Graph

variable {listing : Listing} {graph : Graph}

theorem flatMap_lines (graph : Graph) :
    graph.blocks.flatMap Block.lines = Listing.ids graph.groups.flatten := by
  simp only [groups, Listing.ids, List.map_flatten, List.map_map,
    List.flatMap_def]
  rfl

theorem blocks_eq_nil_of_silent
    (positioned : listing.Positioned)
    (built : Graph.build listing = .ok graph)
    (silent : ∀ row ∈ listing.body, row.isCode = false) :
    graph.blocks = [] := by
  have quiet : listing.body.any Row.isCode = false := by
    rw [List.any_eq_false]
    intro row member
    simp [silent row member]
  have flatten := flatten_groups built
  rw [quiet] at flatten
  apply List.eq_nil_iff_forall_not_mem.mpr
  intro block member
  rcases exists_code_of_mem_blocks positioned built member with
    ⟨row, rowMember, -⟩
  have inside : row ∈ graph.groups.flatten :=
    List.mem_flatten.mpr ⟨block.rows, List.mem_map_of_mem member, rowMember⟩
  rw [flatten] at inside
  exact List.not_mem_nil inside

/-- The blocks hold the lines outside every table once each and in order. -/
theorem blocks_partition
    {lines : Array Line}
    {ids : List Nat}
    (listed : Listing.ofIds? lines ids = some listing)
    (built : Graph.build listing = .ok graph) :
    listing.ids = ids ∧
      ((∀ row ∈ listing, row.inTable = false → row.isCode = false) →
        graph.blocks = []) ∧
      ((∃ row ∈ listing, row.inTable = false ∧ row.isCode = true) →
        graph.blocks.flatMap Block.lines =
          (listing.filter fun row => !row.inTable).map Row.id) ∧
      (∀ block ∈ graph.blocks, ∃ id ∈ block.lines, ∃ line,
        lines[id]? = some line ∧ line.isCode = true) ∧
      ∀ (index : Nat) (block : Block),
        graph.blocks[index]? = some block → block.index = index := by
  have positioned := Listing.positioned_of_ofIds? listed
  refine ⟨Listing.ids_of_ofIds? listed, ?_, ?_, ?_, ?_⟩
  · intro silent
    apply blocks_eq_nil_of_silent positioned built
    intro row member
    rw [Listing.mem_body_iff] at member
    exact silent row member.1 member.2
  · rintro ⟨row, member, outside, code⟩
    have inside : row ∈ listing.body :=
      (listing.mem_body_iff row).mpr ⟨member, outside⟩
    rw [flatMap_lines, flatten_groups_of_code built inside code]
    rfl
  · intro block member
    rcases exists_code_of_mem_blocks positioned built member with
      ⟨row, rowMember, code⟩
    refine ⟨row.id, List.mem_map_of_mem rowMember, ?_⟩
    have inside := mem_body_of_mem_rows built member rowMember
    have listedRow := ((listing.mem_body_iff row).mp inside).1
    rcases Listing.exists_line_of_ofIds? listed listedRow with
      ⟨line, found, same⟩
    exact ⟨line, found, same ▸ code⟩
  · intro index block found
    exact index_eq built found

/-- A small method with a table between its instructions. -/
def tableBetween : Array Line :=
  Line.ofTexts
    ["nop", ":pswitch_0", ".packed-switch 0x0", ":pswitch_0",
      ".end packed-switch", "return-void"]

/--
Lines may be listed repeatedly and out of order; only the table is left out.
-/
theorem blocks_partition_repeated :
    ∃ listing graph,
      Listing.ofIds? tableBetween [5, 2, 3, 4, 0, 0, 1] = some listing ∧
      Graph.build listing = .ok graph ∧
      graph.blocks.flatMap Block.lines = [5, 0, 0, 1] := by
  have run : (Graph.ofIds? tableBetween [5, 2, 3, 4, 0, 0, 1]).isSome =
      true := by
    decide +kernel
  have kept :
      (Listing.ofIds? tableBetween [5, 2, 3, 4, 0, 0, 1]).map (fun listing =>
        ((listing.filter fun row => !row.inTable).map Row.id,
          listing.any fun row => !row.inTable && row.isCode)) =
        some ([5, 0, 0, 1], true) := by
    decide +kernel
  rcases Option.isSome_iff_exists.mp run with ⟨graph, found⟩
  rcases ofIds?_eq_some_iff.mp found with ⟨listing, listed, built⟩
  rw [listed, Option.map_some, Option.some.injEq, Prod.mk.injEq] at kept
  have executed : ∃ row ∈ listing, row.inTable = false ∧ row.isCode = true := by
    simpa using kept.2
  refine ⟨listing, graph, listed, built, ?_⟩
  rw [← kept.1]
  exact (blocks_partition listed built).2.2.1 executed

end SmaliFlow.Flow.Graph
