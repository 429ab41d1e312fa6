import SmaliFlow.Method.Basic
import SmaliFlow.Proofs.Discovery
import SmaliFlow.Proofs.Passage

/-!
# Blocks simulate the steps of a method

A method takes steps between its instructions: to the next instruction unless
the flow ends, to the instruction behind a label that is jumped to or that a
table names, and from every guarded instruction to its handlers.  Each step
either stays in a block or passes to one of its successors.  A step that stays
is absorbed, so whatever the entry of the method reaches by steps lies in a
block that the entry block reaches, and which the search therefore numbers.
-/

namespace SmaliFlow

namespace Flow

/-- Control may pass from one instruction to another in one step. -/
inductive Listing.Step (listing : Listing) : (source target : Row) → Prop where
  /-- To the next instruction, unless the flow ends. -/
  | next
      {source target : Row}
      (member : source ∈ listing.body)
      (code : source.isCode = true)
      (goesOn : source.GoesOn)
      (first : listing.FirstCode (source.position + 1) target) :
      Step listing source target
  /-- From a goto or a conditional branch to its label. -/
  | jump
      {source target label : Row}
      (member : source ∈ listing.body)
      (kind : source.kind = .code .goto ∨ source.kind = .code .branch)
      (jumps : listing.JumpsTo source label)
      (first : listing.FirstCode label.position target) :
      Step listing source target
  /-- From a switch to a label in its table. -/
  | switch
      {source target label : Row}
      (member : source ∈ listing.body)
      (kind : source.kind = .code .switch)
      (switches : listing.SwitchesTo source label)
      (first : listing.FirstCode label.position target) :
      Step listing source target
  /-- From an instruction in a guarded range to its handler. -/
  | handle
      {source target : Row}
      {guard : Guard}
      (member : source ∈ listing.body)
      (code : source.isCode = true)
      (guards : listing.HasGuard guard)
      (after : guard.first.position ≤ source.position)
      (before : source.position ≤ guard.last.position)
      (first : listing.FirstCode guard.handler.position target) :
      Step listing source target

namespace Listing.Step

variable {listing : Listing} {source target : Row}

theorem source_member (step : listing.Step source target) :
    source ∈ listing.body := by
  cases step <;> assumption

theorem source_code (step : listing.Step source target) :
    source.isCode = true := by
  cases step with
  | next _ code => exact code
  | jump _ kind =>
      rcases kind with goto | branch
      · exact Row.isCode_of_kind goto
      · exact Row.isCode_of_kind branch
  | switch _ kind => exact Row.isCode_of_kind kind
  | handle _ code => exact code

end Listing.Step

namespace Graph

variable {listing : Listing} {graph : Graph} {source target : Row}

theorem exists_block_of_code
    (built : Graph.build listing = .ok graph)
    {row : Row}
    (member : row ∈ listing.body)
    (code : row.isCode = true) :
    ∃ (index : Nat) (block : Block), graph.blocks[index]? = some block ∧
      row ∈ block.rows := by
  apply exists_block_of_mem_flatten
  rw [flatten_groups_of_code built member code]
  exact member

theorem position_lt_of_index_lt
    (positioned : listing.Positioned)
    (built : Graph.build listing = .ok graph)
    {first second : Nat}
    {left right : Block}
    (leftFound : graph.blocks[first]? = some left)
    (rightFound : graph.blocks[second]? = some right)
    (order : first < second)
    (sourceMember : source ∈ left.rows)
    (targetMember : target ∈ right.rows) :
    source.position < target.position :=
  (separated_groups positioned built).position_lt
    ((holds_groups_iff leftFound source).mpr sourceMember)
    ((holds_groups_iff rightFound target).mpr targetMember) order

/-- A row lies in one block only. -/
theorem index_unique
    (positioned : listing.Positioned)
    (built : Graph.build listing = .ok graph)
    {first second : Nat}
    {left right : Block}
    (leftFound : graph.blocks[first]? = some left)
    (rightFound : graph.blocks[second]? = some right)
    (leftMember : source ∈ left.rows)
    (rightMember : source ∈ right.rows) :
    first = second :=
  (separated_groups positioned built).holds_unique
    ((holds_groups_iff leftFound source).mpr leftMember)
    ((holds_groups_iff rightFound source).mpr rightMember)

/-! ## Single steps -/

/--
A label that is cut at shares its block with the first instruction behind it.
-/
theorem exists_block_of_cut
    (positioned : listing.Positioned)
    (built : Graph.build listing = .ok graph)
    {label : Row}
    (leads : listing.Leads source label true)
    (member : label ∈ listing.body)
    (first : listing.FirstCode label.position target) :
    ∃ (index : Nat) (block : Block), graph.blocks[index]? = some block ∧
      label ∈ block.rows ∧ target ∈ block.rows := by
  rcases nonempty_assembly built with ⟨assembly⟩
  have link :=
    (Layout.mem_links_iff positioned assembly.laid ⟨source, label, true⟩).mpr
      leads
  have leader : label.position ∈ listing.leaders assembly.layout.links := by
    apply List.mem_append_right
    exact List.mem_map.mpr ⟨_, List.mem_filter.mpr ⟨link, rfl⟩, rfl⟩
  rcases Listing.exists_group_of_leader positioned member leader first with
    ⟨group, groupMember, labelMember, targetMember⟩
  have formed : group ∈ graph.blocks.map Block.rows := by
    rw [assembly.map_rows_blocks, assembly.groups_eq]
    exact groupMember
  rcases List.mem_map.mp formed with ⟨block, blockMember, rfl⟩
  rcases List.mem_iff_getElem?.mp blockMember with ⟨index, found⟩
  exact ⟨index, block, found, labelMember, targetMember⟩

/--
An instruction and the next one lie in the same block or in adjacent ones.
-/
theorem passage_of_next
    (positioned : listing.Positioned)
    (built : Graph.build listing = .ok graph)
    {first second : Nat}
    {left right : Block}
    (leftFound : graph.blocks[first]? = some left)
    (rightFound : graph.blocks[second]? = some right)
    (different : first ≠ second)
    (sourceMember : source ∈ left.rows)
    (targetMember : target ∈ right.rows)
    (code : source.isCode = true)
    (goesOn : source.GoesOn)
    (next : listing.FirstCode (source.position + 1) target) :
    listing.Passage left right := by
  have order : first < second := by
    apply Nat.lt_of_le_of_ne _ different
    by_contra later
    have reversed :=
      position_lt_of_index_lt positioned built rightFound leftFound
        (Nat.lt_of_not_le later) targetMember sourceMember
    have after := next.after
    omega
  -- An instruction of a block in between would come before the next one.
  have adjacent : second = first + 1 := by
    by_contra gap
    have inside : first + 1 < graph.blocks.length := by
      have bound := (List.getElem?_eq_some_iff.mp rightFound).1
      omega
    have found := List.getElem?_eq_getElem inside
    have blockMember := List.mem_of_getElem? found
    rcases exists_code_of_mem_blocks positioned built blockMember with
      ⟨row, rowMember, rowCode⟩
    have behind := position_lt_of_index_lt positioned built leftFound found
      (Nat.lt_succ_self first) sourceMember rowMember
    have ahead := position_lt_of_index_lt positioned built found rightFound
      (by omega) rowMember targetMember
    have least :=
      next.first row (mem_body_of_mem_rows built blockMember rowMember)
        rowCode behind
    omega
  have isLast : Group.IsLastCode left.rows source := by
    refine ⟨sourceMember, code, ?_⟩
    intro row rowMember rowCode
    by_contra later
    have least := next.first row
      (mem_body_of_mem_rows built (List.mem_of_getElem? leftFound) rowMember)
        rowCode
      (by omega)
    have before :=
      position_lt_of_index_lt positioned built leftFound rightFound order
        rowMember targetMember
    omega
  apply Listing.Passage.next _ isLast goesOn
  rw [index_eq built leftFound, index_eq built rightFound]
  exact adjacent

theorem passage_of_handle
    (positioned : listing.Positioned)
    (built : Graph.build listing = .ok graph)
    {index : Nat}
    {left right : Block}
    (found : graph.blocks[index]? = some left)
    (sourceMember : source ∈ left.rows)
    (code : source.isCode = true)
    {guard : Guard}
    (guards : listing.HasGuard guard)
    (after : guard.first.position ≤ source.position)
    (before : source.position ≤ guard.last.position)
    (lands : guard.handler ∈ right.rows) :
    listing.Passage left right := by
  have isLast :=
    listing.isLastProtected_lastProtected positioned guard.first guard.last
  have body :=
    mem_body_of_mem_rows built (List.mem_of_getElem? found) sourceMember
  have inRange : listing.InRange guard.first guard.last source :=
    ⟨((listing.mem_body_iff source).mp body).1, after, before⟩
  refine .handle guards isLast after (isLast.le_of_code inRange code) ?_ lands
  rw [← covers_groups_iff found]
  exact (covers_iff_mem_rows positioned built found body).mpr sourceMember

/-- One step stays in its block or passes to a successor. -/
theorem exists_successor_of_step
    (positioned : listing.Positioned)
    (built : Graph.build listing = .ok graph)
    (step : listing.Step source target)
    {index : Nat}
    {block : Block}
    (found : graph.blocks[index]? = some block)
    (sourceMember : source ∈ block.rows) :
    ∃ (other : Nat) (next : Block), graph.blocks[other]? = some next ∧
      target ∈ next.rows ∧ (index = other ∨ other ∈ block.successors) := by
  have passes {other : Nat} {next : Block}
      (nextFound : graph.blocks[other]? = some next)
      (passage : listing.Passage block next) :
        index = other ∨ other ∈ block.successors :=
    Or.inr (mem_successors_of_passage positioned built found nextFound passage)
  cases step with
  | next member code goesOn first =>
      rcases exists_block_of_code built first.member first.code with
        ⟨other, next, nextFound, targetMember⟩
      refine ⟨other, next, nextFound, targetMember, ?_⟩
      by_cases same : index = other
      · exact Or.inl same
      · exact passes nextFound (passage_of_next positioned built found
          nextFound same
          sourceMember targetMember code goesOn first)
  | jump member kind jumps first =>
      rcases exists_block_of_cut positioned built
        (.branch member (.jump kind jumps))
        jumps.mem_body first with
          ⟨other, next, nextFound, labelMember, targetMember⟩
      exact ⟨other, next, nextFound, targetMember,
        passes nextFound (.jump sourceMember kind jumps labelMember)⟩
  | switch member kind switches first =>
      rcases exists_block_of_cut positioned built
        (.branch member (.switch kind switches))
        switches.mem_body first with
          ⟨other, next, nextFound, labelMember, targetMember⟩
      exact ⟨other, next, nextFound, targetMember,
        passes nextFound (.switch sourceMember kind switches labelMember)⟩
  | @handle guard member code guards after before first =>
      have isLast :=
        listing.isLastProtected_lastProtected positioned guard.first guard.last
      rcases exists_block_of_cut positioned built (.handle guards isLast)
        guards.handler_mem_body first with
          ⟨other, next, nextFound, lands, targetMember⟩
      exact ⟨other, next, nextFound, targetMember,
        passes nextFound (passage_of_handle positioned built found
          sourceMember code guards
          after before lands)⟩

/-! ## Runs -/

/-- The first instruction of a method lies in its first block. -/
theorem index_eq_zero_of_firstCode
    (positioned : listing.Positioned)
    (built : Graph.build listing = .ok graph)
    {entry : Row}
    (first : listing.FirstCode 0 entry)
    {index : Nat}
    {block : Block}
    (found : graph.blocks[index]? = some block)
    (member : entry ∈ block.rows) :
    index = 0 := by
  by_contra later
  have inside : 0 < graph.blocks.length :=
    Nat.zero_lt_of_lt (List.getElem?_eq_some_iff.mp found).1
  have startFound := List.getElem?_eq_getElem inside
  have startMember := List.mem_of_getElem? startFound
  rcases exists_code_of_mem_blocks positioned built startMember with
    ⟨row, rowMember, code⟩
  have before :=
    position_lt_of_index_lt positioned built startFound found (by omega)
      rowMember member
  have least :=
    first.first row (mem_body_of_mem_rows built startMember rowMember) code
      (Nat.zero_le _)
  omega

/--
What the entry of a method reaches by steps lies in blocks that the first block
reaches.
-/
theorem exists_reachable_block
    (positioned : listing.Positioned)
    (built : Graph.build listing = .ok graph)
    {entry row : Row}
    (first : listing.FirstCode 0 entry)
    (run : Relation.ReflTransGen listing.Step entry row) :
    ∃ (index : Nat) (block : Block), graph.blocks[index]? = some block ∧
      row ∈ block.rows ∧
      Relation.ReflTransGen (Discovery.Follows
        (graph.blocks.map Block.successors).toArray)
        0 index := by
  induction run with
  | refl =>
      rcases exists_block_of_code built first.member first.code with
        ⟨index, block, found, member⟩
      cases index_eq_zero_of_firstCode positioned built first found member
      exact ⟨0, block, found, member, .refl⟩
  | tail _ step ih =>
      rcases ih with ⟨index, block, found, member, reached⟩
      rcases exists_successor_of_step positioned built step found member with
        ⟨other, next, nextFound, targetMember, same | follows⟩
      · rw [same] at reached
        exact ⟨other, next, nextFound, targetMember, reached⟩
      · refine ⟨other, next, nextFound, targetMember, reached.tail ⟨?_, ?_⟩⟩
        · simpa [Discovery.targets, found] using follows
        · simpa using (List.getElem?_eq_some_iff.mp nextFound).1

end Graph

end Flow

/-! ## Numbered blocks of a method -/

/-- The listing of the small method with a guarded branch. -/
def Flow.Listing.guardedBranch : Flow.Listing :=
  (ofIds? Graph.guardedBranch (List.range 12)).getD []

namespace Method

open SmaliFlow.Flow

/-- The block with the given index holds the row, and no other block does. -/
structure Owns (method : Method) (row : Row) (index : Nat) (block : Block) :
    Prop where
  found : method.blocks[index]? = some block
  member : row ∈ block.rows
  unique : ∀ (other : Nat) (holder : Block),
    method.blocks[other]? = some holder →
    row ∈ holder.rows → other = index

theorem exists_graph_of_fault_eq_none
    {method : Method}
    {listing : Listing}
    (sound : (method.build listing).fault = none) :
    ∃ graph, Graph.build listing = .ok graph ∧
      (method.build listing).blocks = graph.blocks := by
  unfold build at sound ⊢
  cases outcome : Graph.build listing with
  | error fault =>
      rw [outcome] at sound
      cases sound
  | ok graph => exact ⟨graph, rfl, rfl⟩

@[simp]
theorem lines_build (method : Method) (listing : Listing) :
    (method.build listing).lines = method.lines := by
  unfold build
  cases Graph.build listing <;> rfl

@[simp]
theorem codeCount_build (method : Method) (listing : Listing) :
    (method.build listing).codeCount = method.codeCount := by
  unfold build
  cases Graph.build listing <;> rfl

/-- Numbering changes nothing of a block but its number. -/
theorem getElem?_blocks_discover (method : Method) (index : Nat) :
    method.discover.blocks[index]? =
      method.blocks[index]?.map fun block =>
        { block with discovery := method.discovery.1[index]?.join } := by
  have size : method.discovery.1.size = method.blocks.length := by
    rw [discovery, Discovery.size_number, List.size_toArray, List.length_map]
  rw [discover, List.getElem?_zipWith]
  cases found : method.blocks[index]? with
  | none => rfl
  | some block =>
      have inside : index < method.discovery.1.size := by
        rw [size]
        exact (List.getElem?_eq_some_iff.mp found).1
      simp [inside]

theorem owns_discover
    {method : Method}
    {graph : Graph}
    {listing : Listing}
    (positioned : listing.Positioned)
    (built : Graph.build listing = .ok graph)
    (same : method.blocks = graph.blocks)
    {row : Row}
    {index : Nat}
    {block : Block}
    (found : graph.blocks[index]? = some block)
    (member : row ∈ block.rows) :
    method.discover.Owns row index
      { block with discovery := method.discovery.1[index]?.join } where
  found := by
    rw [getElem?_blocks_discover, same, found]
    rfl
  member := member
  unique := by
    intro other holder holderFound holderMember
    rw [getElem?_blocks_discover, same, Option.map_eq_some_iff] at holderFound
    rcases holderFound with ⟨original, originalFound, rfl⟩
    exact Graph.index_unique positioned built originalFound found
      holderMember member

/--
The blocks simulate the method: a step stays in its block or passes to a
successor, and all that the first instruction reaches lies in numbered blocks.
-/
theorem discover_simulates_steps
    {lines : Array Line}
    {listing : Listing}
    {method : Method}
    (listed : Listing.ofIds? lines method.lines = some listing)
    (sound : (method.build listing).fault = none) :
    (∀ source target, listing.Step source target →
      ∃ index block other next,
        (method.build listing).discover.Owns source index block ∧
        (method.build listing).discover.Owns target other next ∧
        (index = other ∨ other ∈ block.successors)) ∧
    ∀ entry row, listing.FirstCode 0 entry →
      Relation.ReflTransGen listing.Step entry row →
      ∃ index block, (method.build listing).discover.Owns row index block ∧
        block.discovery.isSome = true := by
  have positioned := Listing.positioned_of_ofIds? listed
  rcases exists_graph_of_fault_eq_none sound with ⟨graph, built, same⟩
  constructor
  · intro source target step
    rcases Graph.exists_block_of_code built step.source_member
        step.source_code with
      ⟨index, block, found, member⟩
    rcases Graph.exists_successor_of_step positioned built step
        found member with
      ⟨other, next, nextFound, nextMember, passes⟩
    exact ⟨index, _, other, _, owns_discover positioned built same found member,
      owns_discover positioned built same nextFound nextMember, passes⟩
  · intro entry row first run
    rcases Graph.exists_reachable_block positioned built first run with
      ⟨index, block, found, member, reached⟩
    refine ⟨index, _, owns_discover positioned built same found member, ?_⟩
    rw [← same] at reached found
    have nonempty :
        0 < (((method.build listing).blocks.map
          Block.successors).toArray).size := by
      rw [List.size_toArray, List.length_map]
      exact Nat.zero_lt_of_lt (List.getElem?_eq_some_iff.mp found).1
    rcases Discovery.found_of_reachable _ nonempty reached with
      ⟨number, numbered⟩
    simp [discovery, numbered]

/-- The branch at the entry of the small method takes it to a numbered block. -/
theorem discover_simulates_branch :
    ∃ (method : Method) (entry row : Row),
      Listing.ofIds? Graph.guardedBranch method.lines =
        some Listing.guardedBranch ∧
      (method.build Listing.guardedBranch).fault = none ∧
      Listing.guardedBranch.FirstCode 0 entry ∧
      Listing.guardedBranch.Step entry row ∧
      ∃ index block,
        (method.build Listing.guardedBranch).discover.Owns row index block ∧
        block.discovery.isSome = true := by
  let method := Method.declare 0 Listing.guardedBranch
  let entry :=
    Listing.rowOf none 1 1 (Line.ofText (Bytes.ofString "if-eqz v0, :cond_0") 2)
  let label :=
    Listing.rowOf none 9 9 (Line.ofText (Bytes.ofString ":cond_0") 10)
  let row := Listing.rowOf none 10 10
    (Line.ofText (Bytes.ofString "return-void") 11)
  have listed :
      Listing.ofIds? Graph.guardedBranch method.lines =
        some Listing.guardedBranch := by
    decide +kernel
  have sound : (method.build Listing.guardedBranch).fault = none := by
    decide +kernel
  have first : Listing.guardedBranch.FirstCode 0 entry :=
    ⟨by decide +kernel, by decide +kernel, by decide, by decide +kernel⟩
  have resolves :
      Listing.guardedBranch.Resolves (Bytes.ofString ":cond_0") label :=
    (Listing.label?_eq_some_iff (Listing.positioned_of_ofIds? listed) _ _).mp
      (by decide +kernel)
  have step : Listing.guardedBranch.Step entry row :=
    .jump (by decide +kernel) (by decide +kernel)
      ⟨Bytes.ofString ":cond_0", by decide +kernel, resolves⟩
      ⟨by decide +kernel, by decide +kernel, by decide, by decide +kernel⟩
  exact ⟨method, entry, row, listed, sound, first, step,
    (discover_simulates_steps listed sound).2 entry row first (.single step)⟩

end Method

end SmaliFlow
