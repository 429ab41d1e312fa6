import Mathlib.Data.List.Nodup
import SmaliFlow.Proofs.Outline
import SmaliFlow.Proofs.Partition
import SmaliFlow.Proofs.Reading
import SmaliFlow.Proofs.Simulation

/-!
# Which instructions of a class lie in blocks

Two scans look for tables.  The scan of the file decides which lines are
executed; there a table ends at the closing bracket of either form.  The scan of
a method decides which lines its blocks leave out; there a table ends only at
the closing bracket of its own form, and a line opens one even inside metadata
or array contents.  Where the second table outlasts the first region, it runs
over instructions, and these lie in no block.

The main statement says that this is the only way to lose an instruction: the
blocks of a method hold all its instructions exactly if no table of the method
runs over one.
-/

namespace SmaliFlow

/-! ## Tables that run over instructions -/

/-- What of a line the scan of a method can see. -/
def Line.scanned (line : Line) : Bytes × Bool × Bool :=
  (line.text, line.isCode, line.isGiven)

namespace Flow

/--
A table of these lines runs over an instruction: behind the line that opens it
no line closes its form before the instruction.  Either the line that opens it
stands in a region of the file, or a bracket of the other form has closed it.
-/
inductive TableOverrun (lines : List Line) : Prop where
  | intro (before inside after : List Line) (opener code : Line)
    (form : TableForm)
      (split : lines = before ++ opener :: (inside ++ code :: after))
      (outside : tableAfter none (before.map Line.text) = none)
      (opens : TableForm.opened? opener.text = some form)
      (unclosed : ∀ line ∈ inside, form.isClosedBy line.text = false)
      (executed : code.isCode = true)
      (cause : opener.isGiven = true ∨
        ∃ line ∈ inside, ∃ other : TableForm, other.isClosedBy line.text = true)

private theorem map_text_of_map_scanned
    {lines others : List Line}
    (same : lines.map Line.scanned = others.map Line.scanned) :
    lines.map Line.text = others.map Line.text := by
  have first := congrArg (List.map Prod.fst) same
  rw [List.map_map, List.map_map] at first
  exact first

theorem TableOverrun.congr
    {lines others : List Line}
    (overrun : TableOverrun lines)
    (same : lines.map Line.scanned = others.map Line.scanned) :
    TableOverrun others := by
  rcases overrun with
    ⟨before, inside, after, opener, code, form, rfl, outside, opens, unclosed,
      executed, cause⟩
  rw [List.map_append, List.map_cons, List.map_append, List.map_cons] at same
  rcases List.map_eq_append_iff.mp same.symm with
    ⟨front, rest, rfl, frontSame, restSame⟩
  rcases List.map_eq_cons_iff.mp restSame with
    ⟨first, back, rfl, firstSame, backSame⟩
  rcases List.map_eq_append_iff.mp backSame with
    ⟨middle, tail, rfl, middleSame, tailSame⟩
  rcases List.map_eq_cons_iff.mp tailSame with ⟨last, final, rfl, lastSame, -⟩
  simp only [Line.scanned, Prod.mk.injEq] at firstSame lastSame
  have middleTexts := map_text_of_map_scanned middleSame
  refine ⟨front, middle, final, first, last, form, rfl, ?_, ?_, ?_, ?_, ?_⟩
  · rw [map_text_of_map_scanned frontSame]
    exact outside
  · rw [firstSame.1]
    exact opens
  · have unclosedTexts : ∀ text ∈ inside.map Line.text,
      form.isClosedBy text = false :=
      List.forall_mem_map.mpr unclosed
    rw [← middleTexts] at unclosedTexts
    exact List.forall_mem_map.mp unclosedTexts
  · rw [lastSame.2.1]
    exact executed
  · rcases cause with given | ⟨line, member, other, closed⟩
    · left
      rw [firstSame.2.2]
      exact given
    · right
      have mapped : line.text ∈ middle.map Line.text := by
        rw [middleTexts]
        exact List.mem_map_of_mem member
      rcases List.mem_map.mp mapped with ⟨found, foundMember, text⟩
      exact ⟨found, foundMember, other, text ▸ closed⟩

/--
An instruction of a method lies in a table exactly if some table of the method
runs over an instruction.
-/
theorem exists_code_inTable_iff
    {entries : List IndexedLine}
    {region : Region}
    {run : List Line}
    (regional : Line.Regional region run)
    (kept : entries.map Prod.snd =
      run.filter fun line => !line.isLineDirective) :
    (∃ row ∈ Listing.ofLines entries, row.inTable = true ∧ row.isCode = true) ↔
      TableOverrun (entries.map Prod.snd) := by
  constructor
  · rintro ⟨row, member, inTable, code⟩
    rcases (Listing.mem_ofLines_iff entries row).mp member with
      ⟨before, id, line, after, rfl, rfl⟩
    have texts : (before.map fun entry => entry.2.text) =
        (before.map Prod.snd).map Line.text := by
      rw [List.map_map]
      rfl
    rw [texts] at inTable
    change (tableStep (tableAfter none ((before.map Prod.snd).map Line.text))
      line.text).1 =
      true at inTable
    change line.isCode = true at code
    rw [List.map_append, List.map_cons] at kept ⊢
    cases state : tableAfter none ((before.map Prod.snd).map Line.text) with
    | none =>
        -- The line would have to open a table itself, but such a line is not
        -- executed.
        have inRun : line ∈ run := by
          apply List.mem_of_mem_filter
          rw [← kept]
          exact List.mem_append_right _ List.mem_cons_self
        have read := regional.isCode_read inRun code
        rw [state] at inTable
        cases opened : TableForm.opened? line.text with
        | none => simp [tableStep, opened] at inTable
        | some form => simp [TableForm.isCode_read_of_opened? opened] at read
    | some form =>
        rcases (tableAfter_eq_some_iff _ form).mp state with
          ⟨front, opener, inside, split, outside, opens, unclosed⟩
        rw [split, List.append_assoc, List.cons_append] at kept ⊢
        refine ⟨front, inside, _, opener, line, form, rfl, outside, opens,
          unclosed, code, ?_⟩
        cases given : opener.isGiven with
        | true => exact Or.inl rfl
        | false =>
            exact Or.inr (regional.exists_closing_of_filter kept.symm
              opens given code)
  · rintro ⟨before, inside, after, opener, code, form, split, outside, opens,
      unclosed, executed, -⟩
    have isOpen :=
      (tableAfter_eq_some_iff (before ++ opener :: inside) form).mpr
        ⟨before, opener, inside, rfl, outside, opens, unclosed⟩
    have regrouped :
        entries.map Prod.snd =
          (before ++ opener :: inside) ++ code :: after := by
      rw [split, List.append_assoc, List.cons_append]
    rcases List.map_eq_append_iff.mp regrouped with
      ⟨front, back, rfl, frontLines, backLines⟩
    rcases List.map_eq_cons_iff.mp backLines with
      ⟨⟨id, line⟩, rest, rfl, rfl, -⟩
    refine ⟨_, (Listing.mem_ofLines_iff _ _).mpr
      ⟨front, id, line, rest, rfl, rfl⟩, ?_, executed⟩
    have texts : (front.map fun entry => entry.2.text) =
        (before ++ opener :: inside).map Line.text := by
      rw [← frontLines, List.map_map]
      rfl
    rw [Listing.rowOf, texts, isOpen]
    rfl

/-! ## Instructions of a listing -/

theorem Block.exists_getElem?_lines_iff
    {blocks others : List Block}
    (same : blocks.map Block.lines = others.map Block.lines)
    (index id : Nat) :
    (∃ block, blocks[index]? = some block ∧ id ∈ block.lines) ↔
      ∃ block, others[index]? = some block ∧ id ∈ block.lines := by
  have place (blocks : List Block) :
      (∃ block, blocks[index]? = some block ∧ id ∈ block.lines) ↔
        ∃ ids, (blocks.map Block.lines)[index]? = some ids ∧ id ∈ ids := by
    rw [List.getElem?_map]
    cases blocks[index]? <;> simp
  rw [place, place, same]

theorem Listing.countP_body_eq_iff (listing : Listing) :
    listing.countP Row.isCode = listing.body.countP Row.isCode ↔
      ¬∃ row ∈ listing, row.inTable = true ∧ row.isCode = true := by
  have parts := List.countP_eq_countP_filter_add listing Row.isCode Row.inTable
  rw [parts, body, Nat.add_eq_right, List.countP_eq_zero]
  simp only [List.mem_filter, not_exists, not_and, and_imp, Bool.not_eq_true]

namespace Graph

variable {listing : Listing} {graph : Graph}

theorem mem_rows_of_id_mem_lines
    (built : Graph.build listing = .ok graph)
    (distinct : listing.ids.Nodup)
    {row : Row}
    (member : row ∈ listing)
    {block : Block}
    (blockMember : block ∈ graph.blocks)
    (held : row.id ∈ block.lines) :
    row ∈ block.rows := by
  rcases List.mem_map.mp held with ⟨other, otherMember, same⟩
  have body := mem_body_of_mem_rows built blockMember otherMember
  have listed := ((listing.mem_body_iff other).mp body).1
  rw [← List.inj_on_of_nodup_map distinct listed member same]
  exact otherMember

/-- An instruction outside every table lies in exactly one block. -/
theorem existsUnique_index
    (positioned : listing.Positioned)
    (built : Graph.build listing = .ok graph)
    (distinct : listing.ids.Nodup)
    {row : Row}
    (member : row ∈ listing.body)
    (code : row.isCode = true) :
    ∃! index : Nat, ∃ block : Block,
      graph.blocks[index]? = some block ∧ row.id ∈ block.lines := by
  rcases exists_block_of_code built member code with
    ⟨index, block, found, rowMember⟩
  refine ⟨index, ⟨block, found, List.mem_map_of_mem rowMember⟩, ?_⟩
  rintro other ⟨holder, holderFound, held⟩
  have listed := ((listing.mem_body_iff row).mp member).1
  have holds := mem_rows_of_id_mem_lines built distinct listed
    (List.mem_of_getElem? holderFound) held
  exact index_unique positioned built holderFound found holds rowMember

/--
All instructions lie in exactly one block each, unless some lies in a table.
-/
theorem forall_existsUnique_index_iff
    (positioned : listing.Positioned)
    (built : Graph.build listing = .ok graph)
    (distinct : listing.ids.Nodup) :
    (∀ row ∈ listing, row.isCode = true →
      ∃! index : Nat, ∃ block : Block,
        graph.blocks[index]? = some block ∧ row.id ∈ block.lines) ↔
      ¬∃ row ∈ listing, row.inTable = true ∧ row.isCode = true := by
  constructor
  · rintro all ⟨row, member, inTable, code⟩
    rcases all row member code with ⟨index, ⟨block, found, held⟩, -⟩
    have blockMember := List.mem_of_getElem? found
    have rowMember :=
      mem_rows_of_id_mem_lines built distinct member blockMember held
    have outside :=
      ((listing.mem_body_iff row).mp
        (mem_body_of_mem_rows built blockMember rowMember)).2
    rw [inTable] at outside
    cases outside
  · intro none row member code
    have outside : row.inTable = false := by
      cases inTable : row.inTable with
      | false => rfl
      | true => exact (none ⟨row, member, inTable, code⟩).elim
    exact existsUnique_index positioned built distinct
      ((listing.mem_body_iff row).mpr ⟨member, outside⟩) code

theorem mem_of_mem_flatten_groups
    (built : Graph.build listing = .ok graph)
    {row : Row}
    (member : row ∈ graph.groups.flatten) :
    row ∈ listing := by
  rcases List.mem_flatten.mp member with ⟨group, groupMember, rowMember⟩
  rcases List.mem_map.mp groupMember with ⟨block, blockMember, rfl⟩
  have body := mem_body_of_mem_rows built blockMember rowMember
  exact ((listing.mem_body_iff row).mp body).1

/-- The blocks hold as many instructions as there are outside every table. -/
theorem countP_flatten_groups (built : Graph.build listing = .ok graph) :
    graph.groups.flatten.countP Row.isCode =
      listing.body.countP Row.isCode := by
  rw [flatten_groups built]
  split
  · rfl
  · rename_i silent
    rw [List.countP_nil, eq_comm, List.countP_eq_zero]
    intro row member code
    exact silent (List.any_eq_true.mpr ⟨row, member, code⟩)

end Graph

end Flow

/-! ## Methods of a class -/

theorem Line.scanned_assign (line : Line) (method : Nat) :
    (line.assign method).scanned = line.scanned := by
  cases reading : line.reading <;>
    simp [scanned, assign, classify, isCode, instruction, isGiven, reading]

theorem Line.instruction_assign (line : Line) (method : Nat) :
    (line.assign method).instruction = line.instruction := by
  cases reading : line.reading <;> simp [assign, classify, instruction, reading]

namespace ClassFile

/--
Marking lines as those of a method keeps everything that a single mark keeps.
-/
theorem map_assignLines
    {α : Type}
    (view : Line → α)
    (kept : ∀ (line : Line) (label : Nat), view (line.assign label) = view line)
    (methods : Array Method)
    (lines : Array Line)
    (id : Nat) :
    (assignLines methods lines)[id]?.map view = lines[id]?.map view := by
  have one (label : Nat) (ids : List Nat) (lines : Array Line) :
      (ids.foldl (fun lines id => lines.modify id fun line => line.assign label)
        lines)[id]?.map view = lines[id]?.map view := by
    induction ids generalizing lines with
    | nil => rfl
    | cons first ids ih =>
        rw [List.foldl_cons, ih, Array.getElem?_modify]
        split
        · rw [Option.map_map]
          congr 1
          funext line
          exact kept line label
        · rfl
  rw [assignLines, ← Array.foldl_toList]
  induction methods.toList generalizing lines with
  | nil => rfl
  | cons method methods ih => rw [List.foldl_cons, ih, one]

/--
A class that has been read comes from the lines of its source and their outline.
-/
theorem exists_outline_of_read
    {settings : Settings}
    {path : String}
    {label : Nat}
    {source : Bytes}
    {file : ClassFile}
    (read : (ClassFile.read settings path label source).outcome = .ok file) :
    ∃ lines outline,
      Line.readAll settings path source = .ok lines ∧
      Outline.ofLines lines = .ok outline ∧
      file.lines = assignLines file.methods lines ∧
      ∀ method ∈ file.methods, ∃ index, ∃ entries ∈ outline.methods,
        method = Method.ofLines index entries := by
  rcases (read_eq_ok_iff settings path label source file).mp read with
    ⟨admits, outline, descriptor, outlined, -, rfl⟩
  refine ⟨_, outline,
    (Line.readAll_eq_ok_iff settings path source _).mpr ⟨admits, rfl⟩, outlined,
    rfl, ?_⟩
  intro method member
  simp only [assemble, Outline.compiled, List.mem_toArray, List.mem_map]
    at member
  rcases member with ⟨entry, zipped, rfl⟩
  have found := List.mem_zipIdx_iff_getElem?.mp zipped
  exact ⟨entry.2, entry.1, List.mem_of_getElem? found, rfl⟩

/-- What a method of a class has been made from. -/
structure MethodSource
    (file : ClassFile)
    (method : Method)
    (entries : List IndexedLine) : Prop where
  declared : ∃ index, method = Method.ofLines index entries
  found : ∀ entry ∈ entries, ∃ line,
    file.lines[entry.1]? = some line ∧ line.scanned = entry.2.scanned ∧
      line.instruction = entry.2.instruction
  distinct : (entries.map Prod.fst).Nodup
  regional : ∃ region run, Line.Regional region run ∧
    entries.map Prod.snd = run.filter fun line => !line.isLineDirective

theorem exists_methodSource
    {settings : Settings}
    {path : String}
    {label : Nat}
    {source : Bytes}
    {file : ClassFile}
    (read : (ClassFile.read settings path label source).outcome = .ok file)
    {method : Method}
    (member : method ∈ file.methods) :
    ∃ entries, MethodSource file method entries := by
  rcases exists_outline_of_read read with
    ⟨lines, outline, readLines, outlined, assigned, methods⟩
  rcases methods method member with ⟨index, entries, listed, rfl⟩
  refine ⟨entries, ⟨index, rfl⟩, ?_, Outline.nodup_ids outlined listed,
    Outline.exists_regional (Line.regional_readAll readLines) outlined listed⟩
  intro entry entryMember
  have original := Outline.getElem?_of_mem outlined listed entryMember
  have kept := map_assignLines (fun line => (line.scanned, line.instruction))
    (fun line label => by rw [line.scanned_assign, line.instruction_assign])
    file.methods lines entry.1
  rw [← assigned, original, Option.map_some, Option.map_eq_some_iff] at kept
  rcases kept with ⟨line, found, same⟩
  rw [Prod.mk.injEq] at same
  exact ⟨line, found, same⟩

namespace MethodSource

open SmaliFlow.Flow

variable {file : ClassFile} {method : Method} {entries : List IndexedLine}

theorem lines_eq (origin : MethodSource file method entries) :
    method.lines = (Listing.ofLines entries).ids := by
  rcases origin.declared with ⟨index, rfl⟩
  exact Method.lines_build (Method.declare index _) _

theorem codeCount_eq (origin : MethodSource file method entries) :
    method.codeCount = (Listing.ofLines entries).countP Row.isCode := by
  rcases origin.declared with ⟨index, rfl⟩
  exact Method.codeCount_build (Method.declare index _) _

/-- A method without fault has the blocks of a graph of its listing. -/
theorem exists_graph
    (origin : MethodSource file method entries)
    (sound : method.fault = none) :
    ∃ graph, Graph.build (Listing.ofLines entries) = .ok graph ∧
      method.blocks.map Block.lines = graph.blocks.map Block.lines := by
  rcases origin.declared with ⟨index, rfl⟩
  rcases Method.exists_graph_of_fault_eq_none sound with ⟨graph, built, same⟩
  refine ⟨graph, built, ?_⟩
  apply List.ext_getElem?
  intro index
  rw [List.getElem?_map, List.getElem?_map, Method.ofLines,
    Method.getElem?_blocks_discover, same, Option.map_map]
  rfl

theorem exists_instruction_of_mem
    (origin : MethodSource file method entries)
    {row : Row}
    (member : row ∈ Listing.ofLines entries) :
    ∃ line, file.lines[row.id]? = some line ∧
      line.instruction = row.instruction := by
  rcases (Listing.mem_ofLines_iff entries row).mp member with
    ⟨before, id, written, after, split, rfl⟩
  have listed : (id, written) ∈ entries := by
    rw [split]
    exact List.mem_append_right before List.mem_cons_self
  rcases origin.found (id, written) listed with ⟨line, found, -, same⟩
  exact ⟨line, found, same⟩

theorem exists_line_of_mem
    (origin : MethodSource file method entries)
    {row : Row}
    (member : row ∈ Listing.ofLines entries) :
    ∃ line, file.lines[row.id]? = some line ∧ line.isCode = row.isCode := by
  rcases origin.exists_instruction_of_mem member with ⟨line, found, same⟩
  exact ⟨line, found, congrArg Instruction.isCode same⟩

theorem scanned_linesAt (origin : MethodSource file method entries) :
    (file.linesAt method.lines).map Line.scanned =
      (entries.map Prod.snd).map Line.scanned := by
  have found := origin.found
  rw [origin.lines_eq, Listing.ids_ofLines]
  clear origin
  induction entries with
  | nil => rfl
  | cons entry entries ih =>
      rcases found entry List.mem_cons_self with ⟨line, lineFound, same, -⟩
      have rest :=
        ih fun other member => found other (List.mem_cons_of_mem entry member)
      rw [List.map_cons, List.map_cons, List.map_cons, ← same, ← rest, linesAt,
        List.filterMap_cons_some lineFound]
      rfl

/--
A table of a method runs over an instruction exactly if some instruction is in a
table.
-/
theorem tableOverrun_iff (origin : MethodSource file method entries) :
    TableOverrun (file.linesAt method.lines) ↔
      ∃ row ∈ Listing.ofLines entries,
        row.inTable = true ∧ row.isCode = true := by
  rcases origin.regional with ⟨region, run, regional, kept⟩
  rw [exists_code_inTable_iff regional kept]
  constructor
  · intro overrun
    exact overrun.congr origin.scanned_linesAt
  · intro overrun
    exact overrun.congr origin.scanned_linesAt.symm

end MethodSource

theorem countP_linesAt
    (file : ClassFile)
    (rows : List Flow.Row)
    (found : ∀ row ∈ rows, ∃ line,
      file.lines[row.id]? = some line ∧ line.isCode = row.isCode) :
    (file.linesAt (rows.map Flow.Row.id)).countP Line.isCode =
      rows.countP Flow.Row.isCode := by
  induction rows with
  | nil => rfl
  | cons row rows ih =>
      rcases found row List.mem_cons_self with ⟨line, lineFound, same⟩
      have rest :=
        ih fun other member => found other (List.mem_cons_of_mem row member)
      rw [List.map_cons, linesAt, List.filterMap_cons_some lineFound,
        List.countP_cons, List.countP_cons, same]
      exact congrArg (· + _) rest

/--
The blocks of a method hold each of its instructions exactly once, and as many
instructions as the method counts, exactly if no table of the method runs over
an instruction.
-/
theorem blocks_hold_code_iff
    {settings : Settings}
    {path : String}
    {label : Nat}
    {source : Bytes}
    {file : ClassFile}
    (read : (ClassFile.read settings path label source).outcome = .ok file)
    {method : Method}
    (member : method ∈ file.methods)
    (sound : method.fault = none) :
    ((∀ id ∈ method.lines, ∀ line,
        file.lines[id]? = some line → line.isCode = true →
        ∃! index : Nat, ∃ block,
        method.blocks[index]? = some block ∧ id ∈ block.lines) ↔
      ¬Flow.TableOverrun (file.linesAt method.lines)) ∧
    (method.codeCount =
        (file.linesAt (method.blocks.flatMap Flow.Block.lines)).countP
          Line.isCode ↔
      ¬Flow.TableOverrun (file.linesAt method.lines)) := by
  rcases exists_methodSource read member with ⟨entries, origin⟩
  rcases origin.exists_graph sound with ⟨graph, built, same⟩
  have positioned := Flow.Listing.positioned_ofLines entries
  have distinct : (Flow.Listing.ofLines entries).ids.Nodup := by
    rw [Flow.Listing.ids_ofLines]
    exact origin.distinct
  rw [origin.tableOverrun_iff]
  constructor
  · rw [← Flow.Graph.forall_existsUnique_index_iff positioned built distinct,
      origin.lines_eq, Flow.Listing.ids, List.forall_mem_map]
    simp only [Flow.Block.exists_getElem?_lines_iff same]
    constructor
    · intro all row rowMember code
      rcases origin.exists_line_of_mem rowMember with ⟨line, found, equal⟩
      exact all row rowMember line found (equal.trans code)
    · intro all row rowMember line found code
      rcases origin.exists_line_of_mem rowMember with ⟨other, otherFound, equal⟩
      rw [found, Option.some.injEq] at otherFound
      subst other
      exact all row rowMember (equal.symm.trans code)
  · have held : method.blocks.flatMap Flow.Block.lines =
        graph.groups.flatten.map Flow.Row.id := by
      rw [List.flatMap_def, same, ← List.flatMap_def, Flow.Graph.flatMap_lines]
      rfl
    have counted := file.countP_linesAt graph.groups.flatten (by
      intro row rowMember
      exact origin.exists_line_of_mem
        (Flow.Graph.mem_of_mem_flatten_groups built rowMember))
    rw [← Flow.Listing.countP_body_eq_iff, origin.codeCount_eq, held, counted,
      Flow.Graph.countP_flatten_groups built]

theorem exists_of_view
    {α : Type}
    {outcome : Except SourceError ClassFile}
    {view : ClassFile → Method → α}
    {value : α}
    (viewed : (outcome.toOption.bind fun file =>
      file.methods[0]?.map (view file)) =
      some value) :
    ∃ file method,
      outcome = .ok file ∧ method ∈ file.methods ∧
        view file method = value := by
  rcases Option.bind_eq_some_iff.mp viewed with ⟨file, returned, rest⟩
  rcases Option.map_eq_some_iff.mp rest with ⟨method, found, equal⟩
  refine ⟨file, method, ?_, Array.mem_of_getElem? found, equal⟩
  cases outcome with
  | error cause => cases returned
  | ok result => exact congrArg Except.ok (Option.some.inj returned)

/-- A file with the given lines. -/
def sourceOf (texts : List String) : Bytes :=
  texts.flatMap fun text => Bytes.ofString text ++ [0x0a]

/--
A class whose method holds a table that is closed by the bracket of its own
form.
-/
def closedTable : Bytes :=
  sourceOf
    [".class public LA;", ".method public a(I)V", "packed-switch p1, :table",
      ":case", "return-void", ":table", ".packed-switch 0x0", ":case",
      ".end packed-switch", ".end method"]

/--
A class whose method holds a table that the bracket of the other form closes.
-/
def mismatchedTable : Bytes :=
  sourceOf
    [".class public LA;", ".method public a()V", ".packed-switch 0x0",
      ".end sparse-switch", "return-void", ".end method"]

/--
No table of this method runs over an instruction, so its blocks hold all of
them.
-/
theorem blocks_hold_code_of_closedTable :
    ∃ file method,
      (ClassFile.read Settings.standard "" 0 closedTable).outcome = .ok file ∧
      method ∈ file.methods ∧ method.fault = none ∧
      method.codeCount = 2 ∧ ¬Flow.TableOverrun (file.linesAt method.lines) ∧
      ∀ id ∈ method.lines, ∀ line,
        file.lines[id]? = some line → line.isCode = true →
        ∃! index : Nat, ∃ block,
          method.blocks[index]? = some block ∧ id ∈ block.lines := by
  have run :
      ((ClassFile.read Settings.standard "" 0 closedTable).outcome.toOption.bind
        fun file =>
        file.methods[0]?.map fun method =>
          (method.fault, method.codeCount,
            (file.linesAt (method.blocks.flatMap Flow.Block.lines)).countP
              Line.isCode)) =
        some (none, 2, 2) := by
    decide +kernel
  rcases exists_of_view run with ⟨file, method, read, member, equal⟩
  simp only [Prod.mk.injEq] at equal
  have covered := blocks_hold_code_iff read member equal.1
  have closed := covered.2.mp (equal.2.1.trans equal.2.2.symm)
  exact ⟨file, method, read, member, equal.1, equal.2.1, closed,
    covered.1.mpr closed⟩

/--
Behind a table that the bracket of the other form closes, an instruction is
lost.
-/
theorem code_lost_behind_mismatchedTable :
    ∃ file method,
      (ClassFile.read Settings.standard "" 0 mismatchedTable).outcome =
        .ok file ∧
      method ∈ file.methods ∧ method.fault = none ∧
      (∃ id ∈ method.lines, ∃ line,
        file.lines[id]? = some line ∧ line.isCode = true ∧
        ∀ block ∈ method.blocks, id ∉ block.lines) ∧
      method.codeCount = 1 ∧
      (file.linesAt (method.blocks.flatMap Flow.Block.lines)).countP
        Line.isCode = 0 := by
  have run :
      ((ClassFile.read Settings.standard "" 0
        mismatchedTable).outcome.toOption.bind
        fun file => file.methods[0]?.map fun method =>
          ((method.fault, method.lines, method.blocks),
            (file.lines[4]?).map Line.isCode, method.codeCount,
            (file.linesAt (method.blocks.flatMap Flow.Block.lines)).countP
              Line.isCode)) =
        some ((none, [1, 2, 3, 4, 5], []), some true, 1, 0) := by
    decide +kernel
  rcases exists_of_view run with ⟨file, method, read, member, equal⟩
  simp only [Prod.mk.injEq, Option.map_eq_some_iff] at equal
  rcases equal with ⟨⟨sound, lines, blocks⟩, ⟨line, found, code⟩, counted, held⟩
  refine ⟨file, method, read, member, sound, ⟨4, ?_, line, found, code, ?_⟩,
    counted, held⟩
  · rw [lines]
    decide
  · rw [blocks]
    simp

end ClassFile

end SmaliFlow
