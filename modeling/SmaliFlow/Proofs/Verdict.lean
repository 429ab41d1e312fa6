import SmaliFlow.Proofs.Coverage
import SmaliFlow.Proofs.Reachability

/-!
# What the verdict on a method means

A method looks patched if some of its blocks cannot be reached, or if a block
goes on behind a return.  The second mark is computed from the number of returns
in a block and from its last instruction; the statements of this module bring it
back to the order of the lines, row by row.  With fewer than two to the power of
31 returns in a block, the mark is the same if they are counted in 32 bits.

The main statement is about the methods of a class that has been read.  A method
without blocks never looks patched, and a method whose control flow could not be
rebuilt has none.
-/

namespace SmaliFlow

namespace Flow

/-! ## Code behind a return -/

namespace Group

/-- A return and, later in the group, another instruction. -/
def GoesOnBehindReturn (group : Group) : Prop :=
  ∃ returned later,
    [returned, later].Sublist group ∧ returned.kind = .code .returns ∧
    later.isCode = true

private theorem pair_sublist_concat_iff
    (first second row : Row)
    (front : Group) :
    [first, second].Sublist (front ++ [row]) ↔
      [first, second].Sublist front ∨ (first ∈ front ∧ second = row) := by
  rw [← List.reverse_sublist, List.reverse_concat]
  have back : [first, second].reverse = [second, first] := rfl
  rw [back, List.cons_sublist_cons', List.singleton_sublist, List.mem_reverse,
    ← back, List.reverse_sublist, and_comm]

theorem goesOnBehindReturn_concat_of_silent
    {row : Row}
    (silent : row.isCode = false)
    (front : Group) :
    GoesOnBehindReturn (front ++ [row]) ↔ front.GoesOnBehindReturn := by
  simp only [GoesOnBehindReturn, pair_sublist_concat_iff]
  constructor
  · rintro ⟨returned, later, pair | ⟨-, rfl⟩, kind, code⟩
    · exact ⟨returned, later, pair, kind, code⟩
    · rw [silent] at code
      cases code
  · rintro ⟨returned, later, pair, kind, code⟩
    exact ⟨returned, later, Or.inl pair, kind, code⟩

theorem goesOnBehindReturn_concat_of_code
    {row : Row}
    (code : row.isCode = true)
    (front : Group) :
    GoesOnBehindReturn (front ++ [row]) ↔ ∃ returned ∈ front,
      returned.kind = .code .returns := by
  simp only [GoesOnBehindReturn, pair_sublist_concat_iff]
  constructor
  · rintro ⟨returned, later, pair | ⟨member, -⟩, kind, -⟩
    · exact ⟨returned, pair.subset List.mem_cons_self, kind⟩
    · exact ⟨returned, member, kind⟩
  · rintro ⟨returned, member, kind⟩
    exact ⟨returned, row, Or.inr ⟨member, rfl⟩, kind, code⟩

theorem hasDeadCode_concat_of_silent
    {row : Row}
    (silent : row.isCode = false)
    (front : Group) :
    hasDeadCode (front ++ [row]) = front.hasDeadCode := by
  have noReturn : (row.kind == .code .returns) = false := by
    rw [beq_eq_false_iff_ne]
    intro kind
    rw [Row.isCode_of_kind kind] at silent
    cases silent
  simp [hasDeadCode, lastCode?, List.countP_append, silent, noReturn]

/--
With one more instruction, code is dead exactly if there is a return before it.
-/
theorem hasDeadCode_concat_of_code
    {row : Row}
    (code : row.isCode = true)
    (front : Group) :
    hasDeadCode (front ++ [row]) = true ↔
      ∃ returned ∈ front, returned.kind = .code .returns := by
  have last : lastCode? (front ++ [row]) = some row := by
    simp [lastCode?, code]
  have counted : 0 < front.countP (fun row => row.kind == .code .returns) ↔
      ∃ returned ∈ front, returned.kind = .code .returns := by
    simp [List.countP_pos_iff]
  rw [← counted, hasDeadCode, last, List.countP_append, List.countP_singleton]
  by_cases kind : row.kind = .code .returns
  · simp [kind]
  · simp only [beq_iff_eq, kind, if_false, Nat.add_zero, Option.map_some,
      Bool.or_eq_true, Bool.and_eq_true, decide_eq_true_eq, bne_iff_ne, ne_eq,
      Option.some.injEq, not_false_eq_true, and_true]
    omega

/--
Counting returns and looking at the last instruction finds all code behind a
return.
-/
theorem hasDeadCode_iff (group : Group) :
    group.hasDeadCode = true ↔ group.GoesOnBehindReturn := by
  -- The last row decides: an instruction sees all returns before it, any other
  -- row changes nothing.
  induction group using List.reverseRecOn with
  | nil => simp [hasDeadCode, GoesOnBehindReturn]
  | append_singleton front row ih =>
      cases code : row.isCode with
      | true =>
          rw [hasDeadCode_concat_of_code code,
            goesOnBehindReturn_concat_of_code code]
      | false =>
          rw [hasDeadCode_concat_of_silent code,
            goesOnBehindReturn_concat_of_silent code, ih]

/-! ## Counting in 32 bits -/

/-- The number of returns, as a counter of 32 bits has it. -/
def returnCounter (group : Group) : Int32 :=
  group.foldl
    (fun counter row =>
      if row.kind == .code .returns then counter + 1 else counter)
    0

/-- Whether an instruction follows a return, by a counter of 32 bits. -/
def hasDeadCodeByCounter (group : Group) : Bool :=
  let returns := group.returnCounter
  returns > 1 ||
    (returns == 1 && group.lastCode?.map Row.kind != some (.code .returns))

private theorem toInt_one : (1 : Int32).toInt = 1 := by
  decide

private theorem toInt_add_one
    {counter : Int32}
    (few : counter.toInt < 2147483647) :
    (counter + 1).toInt = counter.toInt + 1 := by
  have least : -2147483648 ≤ counter.toInt := counter.le_toInt
  rw [Int32.toInt_add, toInt_one, Int.bmod_eq_of_le]
  · omega
  · omega

/-- The counter does not run over below two to the power of 31. -/
theorem toInt_returnCounter
    {group : Group}
    (few : group.countP (fun row => row.kind == .code .returns) <
      2147483648) :
    group.returnCounter.toInt =
      group.countP fun row => row.kind == .code .returns := by
  induction group using List.reverseRecOn with
  | nil => rfl
  | append_singleton front row ih =>
      rw [List.countP_append, List.countP_singleton] at few ⊢
      have before := ih (by omega)
      rw [returnCounter] at before ⊢
      rw [List.foldl_append, List.foldl_cons, List.foldl_nil]
      split_ifs at few ⊢ with returns
      · rw [toInt_add_one (by omega), before, Int.natCast_add, Int.natCast_one]
      · rw [before, Nat.add_zero]

/-- Up to that many returns, a counter of 32 bits finds the same dead code. -/
theorem hasDeadCode_eq_byCounter
    {group : Group}
    (few : group.countP (fun row => row.kind == .code .returns) <
      2147483648) :
    group.hasDeadCode = group.hasDeadCodeByCounter := by
  have counted := toInt_returnCounter few
  have several : group.returnCounter > 1 ↔
      group.countP (fun row => row.kind == .code .returns) > 1 := by
    rw [gt_iff_lt, Int32.lt_iff_toInt_lt, counted, toInt_one]
    omega
  have single : group.returnCounter = 1 ↔
      group.countP (fun row => row.kind == .code .returns) = 1 := by
    rw [← Int32.toInt_inj, counted, toInt_one]
    omega
  simp only [hasDeadCode, hasDeadCodeByCounter, several, single,
    Bool.beq_eq_decide_eq]

end Group

end Flow

open SmaliFlow.Flow

/-- A method whose control flow could not be rebuilt has no blocks. -/
theorem Method.blocks_build_of_fault
    {method : Method}
    {listing : Listing}
    (failed : (method.build listing).fault ≠ none) :
    (method.build listing).blocks = [] := by
  unfold Method.build at failed ⊢
  cases outcome : Graph.build listing with
  | error fault => rfl
  | ok graph =>
      rw [outcome] at failed
      exact (failed rfl).elim

/-! ## Methods of a class -/

namespace ClassFile

/--
A return line of the block and, later in the block, another line that is
executed.
-/
def GoesOnBehindReturn (file : ClassFile) (block : Block) : Prop :=
  ∃ returned later, [returned, later].Sublist block.lines ∧
    (∃ line, file.lines[returned]? = some line ∧
      line.instruction.kind = .code .returns) ∧
    ∃ line, file.lines[later]? = some line ∧ line.isCode = true

namespace MethodSource

variable {file : ClassFile} {method : Method} {entries : List IndexedLine}
  {block : Block}

theorem exists_original
    (origin : MethodSource file method entries)
    (member : block ∈ method.blocks) :
    ∃ graph, Graph.build (Listing.ofLines entries) = .ok graph ∧
      ∃ original ∈ graph.blocks,
        block.rows = original.rows ∧ block.marks = original.marks := by
  rcases origin.declared with ⟨label, rfl⟩
  rcases List.mem_iff_getElem?.mp member with ⟨index, found⟩
  rw [Method.ofLines, Method.getElem?_blocks_discover, Option.map_eq_some_iff]
    at found
  rcases found with ⟨original, originalFound, rfl⟩
  have originalMember := List.mem_of_getElem? originalFound
  by_cases sound : ((Method.declare label (Listing.ofLines entries)).build
      (Listing.ofLines entries)).fault = none
  · rcases Method.exists_graph_of_fault_eq_none sound with ⟨graph, built, same⟩
    rw [same] at originalMember
    exact ⟨graph, built, original, originalMember, rfl, rfl⟩
  · rw [Method.blocks_build_of_fault sound] at originalMember
    cases originalMember

theorem hasDeadCode_eq
    (origin : MethodSource file method entries)
    (member : block ∈ method.blocks) :
    block.marks.hasDeadCode = block.rows.hasDeadCode := by
  rcases origin.exists_original member with
    ⟨graph, built, original, originalMember, rows, marks⟩
  rcases Graph.exists_marks_eq built originalMember with
    ⟨isGuarded, isHandler, equal⟩
  rw [marks, rows, equal]
  rfl

/-- The lines of a block stand in the class as the rows of the block say. -/
theorem exists_line_of_mem_rows
    (origin : MethodSource file method entries)
    (member : block ∈ method.blocks)
    {row : Row}
    (inside : row ∈ block.rows) :
    ∃ line, file.lines[row.id]? = some line ∧
      line.instruction = row.instruction := by
  rcases origin.exists_original member with
    ⟨graph, built, original, originalMember, rows, -⟩
  rw [rows] at inside
  have body := Graph.mem_body_of_mem_rows built originalMember inside
  exact origin.exists_instruction_of_mem
    ((Listing.mem_body_iff _ row).mp body).1

theorem goesOnBehindReturn_iff
    (origin : MethodSource file method entries)
    (member : block ∈ method.blocks) :
    file.GoesOnBehindReturn block ↔ block.rows.GoesOnBehindReturn := by
  constructor
  · rintro ⟨returned, later, pair, ⟨first, firstFound, kind⟩, second,
      secondFound, code⟩
    rcases List.sublist_map_iff.mp pair with ⟨rows, part, same⟩
    rcases List.map_eq_cons_iff.mp same.symm with
      ⟨former, others, rfl, rfl, rest⟩
    rcases List.map_eq_singleton_iff.mp rest with ⟨behind, rfl, rfl⟩
    rcases origin.exists_line_of_mem_rows member
        (part.subset List.mem_cons_self) with
      ⟨line, found, instruction⟩
    rcases origin.exists_line_of_mem_rows member
      (part.subset (List.mem_cons_of_mem _ List.mem_cons_self)) with
      ⟨other, otherFound, otherInstruction⟩
    rw [firstFound, Option.some.injEq] at found
    rw [secondFound, Option.some.injEq] at otherFound
    subst line other
    refine ⟨former, behind, part, ?_, ?_⟩
    · rw [Row.kind, ← instruction, kind]
    · rw [Row.isCode, ← otherInstruction]
      exact code
  · rintro ⟨returned, later, pair, kind, code⟩
    rcases origin.exists_line_of_mem_rows member
        (pair.subset List.mem_cons_self) with
      ⟨line, found, instruction⟩
    rcases origin.exists_line_of_mem_rows member
      (pair.subset (List.mem_cons_of_mem _ List.mem_cons_self)) with
      ⟨other, otherFound, otherInstruction⟩
    refine ⟨returned.id, later.id, pair.map Row.id, ⟨line, found, ?_⟩, other,
      otherFound, ?_⟩
    · rw [instruction]
      exact kind
    · rw [Line.isCode, otherInstruction]
      exact code

theorem hasUnlinkedBlocks_iff (origin : MethodSource file method entries) :
    method.hasUnlinkedBlocks = true ↔
      ∃ index < method.blocks.length, ¬method.Reaches index := by
  rcases origin.declared with ⟨label, rfl⟩
  exact Method.hasUnlinkedBlocks_iff _

theorem blocks_eq_nil_of_fault
    (origin : MethodSource file method entries)
    (failed : method.fault ≠ none) :
    method.blocks = [] := by
  rcases origin.declared with ⟨label, rfl⟩
  have empty := Method.blocks_build_of_fault failed
  rw [← List.length_eq_zero_iff, Method.ofLines, Method.length_blocks_discover,
    empty]
  rfl

theorem isProbablyPatched_iff (origin : MethodSource file method entries) :
    method.isProbablyPatched = true ↔
      (∃ index < method.blocks.length, ¬method.Reaches index) ∨
        ∃ block ∈ method.blocks, file.GoesOnBehindReturn block := by
  rw [Method.isProbablyPatched, Bool.or_eq_true, List.any_eq_true,
    origin.hasUnlinkedBlocks_iff]
  apply or_congr Iff.rfl
  refine exists_congr fun block => and_congr_right ?_
  intro member
  rw [origin.hasDeadCode_eq member, Group.hasDeadCode_iff,
    origin.goesOnBehindReturn_iff member]

theorem isProbablyPatched_of_blocks_eq_nil
    (origin : MethodSource file method entries)
    (empty : method.blocks = []) :
    method.isProbablyPatched = false := by
  rw [Bool.eq_false_iff, ne_eq, origin.isProbablyPatched_iff, empty]
  simp

end MethodSource

/--
A method of a class looks patched exactly if some block cannot be reached from
the first one, or a block goes on behind a return.  Without blocks it never
does, and there are none if the control flow could not be rebuilt.
-/
theorem isProbablyPatched_iff_unreachable_or_dead
    {settings : Settings}
    {path : String}
    {label : Nat}
    {source : Bytes}
    {file : ClassFile}
    (read : (ClassFile.read settings path label source).outcome = .ok file)
    {method : Method}
    (member : method ∈ file.methods) :
    (method.isProbablyPatched = true ↔
      (∃ index < method.blocks.length, ¬method.Reaches index) ∨
        ∃ block ∈ method.blocks, file.GoesOnBehindReturn block) ∧
    (method.blocks = [] → method.isProbablyPatched = false) ∧
    (method.fault ≠ none →
      method.blocks = [] ∧ method.isProbablyPatched = false) := by
  rcases exists_methodSource read member with ⟨entries, origin⟩
  refine ⟨origin.isProbablyPatched_iff,
    origin.isProbablyPatched_of_blocks_eq_nil, ?_⟩
  intro failed
  have empty := origin.blocks_eq_nil_of_fault failed
  exact ⟨empty, origin.isProbablyPatched_of_blocks_eq_nil empty⟩

/-- A class whose method goes on behind a return. -/
def codeBehindReturn : Bytes :=
  sourceOf
    [".class public LA;", ".method public a()V", "return-void", "nop", ":end",
      "return-void", ".end method"]

/--
The only block of this method is its entry, so the verdict comes from the
return.
-/
theorem isProbablyPatched_of_codeBehindReturn :
    ∃ file method block,
      (ClassFile.read Settings.standard "" 0 codeBehindReturn).outcome =
        .ok file ∧
      method ∈ file.methods ∧ method.isProbablyPatched = true ∧
      method.blocks = [block] ∧
      file.GoesOnBehindReturn block := by
  have run :
      ((ClassFile.read Settings.standard "" 0
        codeBehindReturn).outcome.toOption.bind
        fun file => file.methods[0]?.map fun method =>
          (method.isProbablyPatched, method.blocks.length)) =
        some (true, 1) := by
    decide +kernel
  rcases exists_of_view run with ⟨file, method, read, member, equal⟩
  rw [Prod.mk.injEq] at equal
  rcases equal with ⟨patched, single⟩
  rcases List.length_eq_one_iff.mp single with ⟨block, blocks⟩
  refine ⟨file, method, block, read, member, patched, blocks, ?_⟩
  rcases (isProbablyPatched_iff_unreachable_or_dead read member).1.mp
      patched with
    ⟨index, inside, unreached⟩ | ⟨other, otherMember, dead⟩
  · rw [single, Nat.lt_one_iff] at inside
    subst index
    exact (unreached .refl).elim
  · rw [blocks, List.mem_singleton] at otherMember
    exact otherMember ▸ dead

end ClassFile

end SmaliFlow
