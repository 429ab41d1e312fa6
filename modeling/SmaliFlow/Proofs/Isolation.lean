import SmaliFlow.Proofs.Ownership
import SmaliFlow.Proofs.Relocation

/-!
# Methods do not influence each other

What reading makes of a method depends on the raw lines of the method alone.  A
method begins and ends outside every region, so neither the lines above it nor
those below it decide what its lines are; and where it stands in the file only
moves its indices and its line numbers.

Two consequences are drawn.  Read alone, behind a class declaration, the lines
of a method give the same method.  And when they are replaced by those of any
other method, which may have no control flow at all, the file is still accepted
and all its other methods stay as they are.
-/

namespace SmaliFlow

/-! ## Moved lines -/

namespace Line

theorem scan_add
    (region : Region)
    (number distance : Nat)
    (rawLines : List Bytes) :
    scan region (number + distance) rawLines =
      (scan region number rawLines).map (renumber distance) := by
  induction rawLines generalizing region number with
  | nil => rfl
  | cons raw rawLines ih =>
      rw [scan, scan, List.map_cons, ← ih, Nat.add_right_comm]
      rfl

end Line

namespace Outline

/-- The lines of a file with their indices. -/
def entries (rawLines : List Bytes) : List IndexedLine :=
  indexed 0 (Line.scan .body 1 rawLines)

theorem length_entries (rawLines : List Bytes) :
    (entries rawLines).length = rawLines.length := by
  rw [entries, indexed, List.length_map, List.length_zipIdx, Line.length_scan]

theorem indexed_renumber (index distance : Nat) (lines : List Line) :
    indexed (index + distance) (lines.map (Line.renumber distance)) =
      (indexed index lines).map (IndexedLine.shift distance) := by
  induction lines generalizing index with
  | nil => rfl
  | cons line lines ih =>
      rw [List.map_cons, indexed_cons, indexed_cons, List.map_cons, ← ih,
        Nat.add_right_comm]
      rfl

/--
The indices and the numbers of lines are those at the beginning of a file,
moved.
-/
theorem indexed_scan_from
    (region : Region)
    (position : Nat)
    (rawLines : List Bytes) :
    indexed position (Line.scan region (1 + position) rawLines) =
      (indexed 0 (Line.scan region 1 rawLines)).map
        (IndexedLine.shift position) := by
  have moved := indexed_renumber 0 position (Line.scan region 1 rawLines)
  rwa [← Line.scan_add, Nat.zero_add] at moved

theorem indexed_scan (position : Nat) (rawLines : List Bytes) :
    indexed position (Line.scan .body (1 + position) rawLines) =
      (entries rawLines).map (IndexedLine.shift position) :=
  indexed_scan_from .body position rawLines

/-- Behind lines that end outside every region a file begins anew. -/
theorem entries_append
    {front : List Bytes}
    (outside : Region.after .body (front.map Bytes.trim) = .body)
    (back : List Bytes) :
    entries (front ++ back) =
      entries front ++ (entries back).map (IndexedLine.shift front.length) := by
  rw [← indexed_scan, entries, Line.scan_append, outside, indexed_append,
    Line.length_scan, Nat.zero_add]
  rfl

theorem kept_shift (distance : Nat) (run : List IndexedLine) :
    kept (run.map (IndexedLine.shift distance)) =
      (kept run).map (IndexedLine.shift distance) :=
  List.filter_map

/-! ## Divisions of moved lines -/

theorem completes_cons_iff (entry : IndexedLine) (tail : List IndexedLine) :
    Completes (entry :: tail) ↔
      (entry.2.closesMethod = true ∧ tail = []) ∨
      (entry.2.opensMethod = false ∧ entry.2.closesMethod = false ∧
        Completes tail) := by
  constructor
  · intro completes
    cases completes with
    | close closes => exact Or.inl ⟨closes, rfl⟩
    | step opens closes rest => exact Or.inr ⟨opens, closes, rest⟩
  · rintro (⟨closes, rfl⟩ | ⟨opens, closes, rest⟩)
    · exact .close closes
    · exact .step opens closes rest

theorem completes_shift_iff (distance : Nat) (tail : List IndexedLine) :
    Completes (tail.map (IndexedLine.shift distance)) ↔ Completes tail := by
  induction tail with
  | nil => exact ⟨nofun, nofun⟩
  | cons entry tail ih =>
      rw [List.map_cons, completes_cons_iff, completes_cons_iff, ih,
        List.map_eq_nil_iff]
      rfl

theorem isRun_shift_iff (distance : Nat) (run : List IndexedLine) :
    IsRun (run.map (IndexedLine.shift distance)) ↔ IsRun run := by
  cases run with
  | nil => exact ⟨nofun, nofun⟩
  | cons header tail =>
      constructor
      · rintro ⟨opens, completes⟩
        exact .intro opens ((completes_shift_iff distance tail).mp completes)
      · rintro ⟨opens, completes⟩
        exact .intro opens ((completes_shift_iff distance tail).mpr completes)

namespace Divided

variable {entries others : List IndexedLine} {runs : List (List IndexedLine)}

theorem shift (divided : Divided entries runs others) (distance : Nat) :
    Divided (entries.map (IndexedLine.shift distance))
      (runs.map (List.map (IndexedLine.shift distance)))
      (others.map (IndexedLine.shift distance)) := by
  induction divided with
  | nil => exact .nil
  | other opens _ ih => exact .other opens ih
  | method isRun _ ih =>
      rw [List.map_append]
      exact .method ((isRun_shift_iff distance _).mpr isRun) ih

theorem exists_of_shift
    {distance : Nat}
    (divided : Divided (entries.map (IndexedLine.shift distance)) runs others) :
    ∃ originalRuns originalOthers, Divided entries originalRuns originalOthers ∧
      runs = originalRuns.map (List.map (IndexedLine.shift distance)) ∧
      others = originalOthers.map (IndexedLine.shift distance) := by
  generalize same : entries.map (IndexedLine.shift distance) = shifted
    at divided
  induction divided generalizing entries with
  | nil =>
      cases List.map_eq_nil_iff.mp same
      exact ⟨[], [], .nil, rfl, rfl⟩
  | other opens _ ih =>
      rcases List.map_eq_cons_iff.mp same with ⟨entry, rest, rfl, rfl, restSame⟩
      rcases ih restSame with ⟨originalRuns, originalOthers, original, rfl, rfl⟩
      exact ⟨originalRuns, entry :: originalOthers, .other opens original, rfl,
        rfl⟩
  | method isRun _ ih =>
      rcases List.map_eq_append_iff.mp same with ⟨run, rest, rfl, rfl, restSame⟩
      rcases ih restSame with ⟨originalRuns, originalOthers, original, rfl, rfl⟩
      exact ⟨run :: originalRuns, originalOthers,
        .method ((isRun_shift_iff distance run).mp isRun) original, rfl, rfl⟩

theorem append
    (front : Divided entries runs others)
    {backEntries backOthers : List IndexedLine}
    {backRuns : List (List IndexedLine)}
    (back : Divided backEntries backRuns backOthers) :
    Divided (entries ++ backEntries) (runs ++ backRuns)
      (others ++ backOthers) := by
  induction front with
  | nil => exact back
  | other opens _ ih => exact .other opens ih
  | method isRun _ ih =>
      rw [List.append_assoc]
      exact .method isRun ih

end Divided

/-! ## Regions around a method -/

/-- A method begins and ends outside every region. -/
theorem IsRun.region
    {region : Region}
    {index number : Nat}
    {rawLines : List Bytes}
    (isRun : IsRun (indexed index (Line.scan region number rawLines))) :
    region = .body ∧ region.after (rawLines.map Bytes.trim) = .body := by
  rcases isRun.exists_ends with ⟨header, inner, closer, equal, opens, closes, -⟩
  have lines := congrArg (List.map Prod.snd) equal
  rw [map_snd_indexed, List.map_cons, List.map_append, List.map_singleton]
    at lines
  have regional := Line.regional_scan region number rawLines
  have texts := Line.map_text_scan region number rawLines
  rw [lines] at regional
  rw [lines, ← List.cons_append, List.map_append, List.map_singleton] at texts
  rw [Line.opensMethod, Bool.and_eq_true, Bool.not_eq_true'] at opens
  rw [Line.closesMethod, Bool.and_eq_true, Bool.not_eq_true'] at closes
  rw [← List.cons_append] at regional
  have last := regional.back.region_eq_body closes.1
  refine ⟨regional.region_eq_body opens.1, ?_⟩
  rw [← texts, Region.after_append, last]
  exact Region.opened_eq_body closes.2 (by decide)

end Outline

/-! ## The declaration of a class -/

namespace Attributes

/-- The descriptor that a line gives to the class. -/
def declared? (line : Line) : Option Bytes :=
  if line.knownKind?.isSome || line.text.startsWith ".field" then
    none
  else
    (scanClass? line.text).map Prod.snd

theorem descriptor_addDeclaration (attributes : Attributes) (text : Bytes) :
    (attributes.addDeclaration text).descriptor =
      ((scanClass? text).map Prod.snd).or attributes.descriptor := by
  unfold addDeclaration
  cases scanClass? text with
  | some declaration => rfl
  | none =>
      simp only [Option.map_none, Option.none_or]
      cases scanName? ".super" text with
      | some name => rfl
      | none =>
          cases scanName? ".implements" text with
          | some name => rfl
          | none => cases scanSource? text <;> rfl

theorem descriptor_add (attributes : Attributes) (line : Line) :
    (attributes.add line).descriptor =
      (declared? line).or attributes.descriptor := by
  unfold add declared?
  cases line.knownKind?.isSome with
  | true => rfl
  | false =>
      cases line.text.startsWith ".field" with
      | true => cases Field.read? line.text line.number <;> rfl
      | false => exact descriptor_addDeclaration attributes line.text

/-- The last declaration counts. -/
theorem descriptor_ofLines (entries : List IndexedLine) :
    (ofLines entries).descriptor =
      (entries.map fun entry => declared? entry.2).foldl
        (fun descriptor declared => declared.or descriptor) none := by
  have fold (attributes : Attributes) :
      (entries.foldl (fun attributes entry => attributes.add entry.2)
        attributes).descriptor =
        (entries.map fun entry => declared? entry.2).foldl
          (fun descriptor declared => declared.or descriptor)
            attributes.descriptor := by
    induction entries generalizing attributes with
    | nil => rfl
    | cons entry entries ih =>
        rw [List.foldl_cons, ih, descriptor_add, List.map_cons, List.foldl_cons]
  exact fold {}

theorem isSome_declared?
    {line : Line}
    (own : line.knownKind? = none)
    (starts : line.text.startsWith ".class" = true) :
    (declared? line).isSome = true := by
  have silent := Bytes.startsWith_eq_false_of_apart starts ".field" (by decide)
  rw [Bytes.startsWith, List.isPrefixOf_iff_prefix] at starts
  rcases starts with ⟨rest, text⟩
  have scanned : Scan.word? ".class" line.text = some rest :=
    Scan.word?_eq_some_iff.mpr text
  simp [declared?, own, silent, scanClass?, scanned]

/-- Where the lines stand has no influence on the descriptor. -/
theorem descriptor_shift
    (front back : List IndexedLine)
    (distance other : Nat) :
    (ofLines (front ++ back.map (IndexedLine.shift distance))).descriptor =
      (ofLines (front ++ back.map (IndexedLine.shift other))).descriptor := by
  rw [descriptor_ofLines, descriptor_ofLines, List.map_append, List.map_append,
    List.map_map, List.map_map]
  rfl

end Attributes

/-! ## A method within its file -/

theorem IndexedLine.map_shift_shift
    (entries : List IndexedLine)
    (first second : Nat) :
    (entries.map (shift first)).map (shift second) =
      entries.map (shift (first + second)) := by
  rw [List.map_map]
  congr 1
  funext entry
  simp [shift, Line.renumber, Nat.add_assoc]

namespace Outline

theorem exists_append_of_scan
    {region : Region}
    {index number : Nat}
    {rawLines : List Bytes}
    {front back : List IndexedLine}
    (same : indexed index (Line.scan region number rawLines) = front ++ back) :
    ∃ rawFront rawBack, rawLines = rawFront ++ rawBack ∧
      front = indexed index (Line.scan region number rawFront) ∧
      back = indexed (index + rawFront.length)
        (Line.scan (region.after (rawFront.map Bytes.trim))
          (number + rawFront.length)
          rawBack) := by
  induction front generalizing region index number rawLines with
  | nil => exact ⟨[], rawLines, rfl, rfl, same.symm⟩
  | cons entry front ih =>
      cases rawLines with
      | nil => cases same
      | cons raw rawLines =>
          rw [Line.scan, indexed_cons, List.cons_append, List.cons.injEq]
            at same
          rcases ih same.2 with ⟨rawFront, rawBack, rfl, frontEqual, backEqual⟩
          refine ⟨raw :: rawFront, rawBack, rfl, ?_, ?_⟩
          · rw [Line.scan, indexed_cons, same.1, frontEqual]
          · rw [backEqual, List.length_cons, List.map_cons, Region.after_cons,
              Nat.add_right_comm index, Nat.add_assoc index,
              Nat.add_right_comm number, Nat.add_assoc number]

/-- A divided file in which one method has been left out. -/
structure Context where
  before : List Bytes
  after : List Bytes
  runsBefore : List (List IndexedLine)
  runsAfter : List (List IndexedLine)
  othersBefore : List IndexedLine
  othersAfter : List IndexedLine
  outside : Region.after .body (before.map Bytes.trim) = .body
  dividedBefore : Divided (entries before) runsBefore othersBefore
  dividedAfter : Divided (entries after) runsAfter othersAfter

namespace Context

variable (context : Context) (extent : List Bytes)

/-- The raw lines of the file with a method of the given raw lines. -/
def rawLines : List Bytes :=
  context.before ++ (extent ++ context.after)

/-- The methods of the file with a method of the given raw lines. -/
def runs : List (List IndexedLine) :=
  context.runsBefore ++
    (entries extent).map (IndexedLine.shift context.before.length) ::
    context.runsAfter.map
      (List.map (IndexedLine.shift (context.before.length + extent.length)))

/-- The other lines of the file with a method of the given raw lines. -/
def others : List IndexedLine :=
  context.othersBefore ++
    context.othersAfter.map (IndexedLine.shift
      (context.before.length + extent.length))

/-- The index of the method that has been left out. -/
def index : Nat :=
  context.runsBefore.length

theorem entries_rawLines
    {extent : List Bytes}
    (isRun : IsRun (entries extent)) :
    entries (context.rawLines extent) =
      entries context.before ++
        ((entries extent).map (IndexedLine.shift context.before.length) ++
          (entries context.after).map
            (IndexedLine.shift (context.before.length + extent.length))) := by
  rw [rawLines, entries_append context.outside, entries_append isRun.region.2,
    List.map_append, IndexedLine.map_shift_shift, Nat.add_comm extent.length]

/-- Whichever method is put in, the file can be divided. -/
theorem divided {extent : List Bytes} (isRun : IsRun (entries extent)) :
    Divided (entries (context.rawLines extent)) (context.runs extent)
      (context.others extent) := by
  rw [context.entries_rawLines isRun]
  refine context.dividedBefore.append
    (.method ?_ (context.dividedAfter.shift _))
  exact (isRun_shift_iff _ _).mpr isRun

/-- Whichever method is put in, the file declares the same class. -/
theorem descriptor_others (other : List Bytes) :
    (Attributes.ofLines (context.others extent)).descriptor =
      (Attributes.ofLines (context.others other)).descriptor :=
  Attributes.descriptor_shift _ _ _ _

theorem length_runs (other : List Bytes) :
    (context.runs extent).length = (context.runs other).length := by
  simp only [runs, List.length_append, List.length_cons, List.length_map]

theorem getElem?_runs_of_lt
    {position : Nat}
    (before : position < context.index) :
    (context.runs extent)[position]? = context.runsBefore[position]? :=
  List.getElem?_append_left before

theorem getElem?_runs_index :
    (context.runs extent)[context.index]? =
      some ((entries extent).map
        (IndexedLine.shift context.before.length)) := by
  rw [runs, List.getElem?_append_right (Nat.le_refl context.index), index,
    Nat.sub_self, List.getElem?_cons_zero]

theorem getElem?_runs_of_gt
    {position : Nat}
    (behind : context.index < position) :
    (context.runs extent)[position]? =
      context.runsAfter[position - (context.index + 1)]?.map
        (List.map (IndexedLine.shift (context.before.length +
          extent.length))) := by
  rcases Nat.exists_eq_add_of_lt behind with ⟨offset, rfl⟩
  rw [runs, index, Nat.add_assoc,
    List.getElem?_append_right (Nat.le_add_right _ _), Nat.add_sub_cancel_left,
    List.getElem?_cons_succ, List.getElem?_map, ← Nat.add_assoc,
    Nat.add_right_comm, Nat.add_sub_cancel_left]

end Context

/-- Around each of its methods a divided file is such a context. -/
theorem Divided.exists_context
    {rawLines : List Bytes}
    {runs : List (List IndexedLine)}
    {others : List IndexedLine}
    (divided : Divided (entries rawLines) runs others)
    {index : Nat}
    {run : List IndexedLine}
    (found : runs[index]? = some run) :
    ∃ (context : Context) (extent : List Bytes), IsRun (entries extent) ∧
      rawLines = context.rawLines extent ∧ runs = context.runs extent ∧
      others = context.others extent ∧ index = context.index := by
  rcases List.getElem?_eq_some_iff.mp found with ⟨inside, rfl⟩
  have parts :
      runs = runs.take index ++ runs[index] :: runs.drop (index + 1) := by
    rw [← List.drop_eq_getElem_cons inside, List.take_append_drop]
  rcases divided.exists_of_append parts with
    ⟨isRun, entriesBefore, entriesAfter, othersBefore, othersAfter, segments,
      othersEqual, dividedBefore, dividedAfter⟩
  rcases exists_append_of_scan segments with ⟨before, rest, rfl, rfl, restEqual⟩
  rcases exists_append_of_scan restEqual.symm with
    ⟨extent, after, rfl, runEqual, afterEqual⟩
  -- The header has been read outside every region, and so has the line behind
  -- the method.
  rw [runEqual] at isRun
  rcases isRun.region with ⟨outside, outsideAfter⟩
  rw [outside, Nat.zero_add, indexed_scan] at runEqual isRun
  rw [outsideAfter, Nat.zero_add, Nat.add_assoc 1, indexed_scan] at afterEqual
  rw [afterEqual] at dividedAfter
  rcases dividedAfter.exists_of_shift with
    ⟨runsAfter, originalOthers, original, equal, rfl⟩
  let context : Context :=
    { before, after, runsBefore := runs.take index, runsAfter, othersBefore
      othersAfter := originalOthers, outside, dividedBefore
      dividedAfter := original }
  refine ⟨context, extent, (isRun_shift_iff _ _).mp isRun, rfl, ?_, othersEqual,
    ?_⟩
  · rw [Context.runs, ← runEqual, ← equal]
    exact parts
  · exact (List.length_take_of_le (Nat.le_of_lt inside)).symm

end Outline

namespace Method

/-- The index of the header of a method. -/
def first (method : Method) : Nat :=
  method.lines.head?.getD 0

/-- The index of the line that closes a method. -/
def last (method : Method) : Nat :=
  method.lines.getLast?.getD 0

/-- The raw lines from the header of a method to the line that closes it. -/
def extent (method : Method) (rawLines : List Bytes) : List Bytes :=
  (rawLines.drop method.first).take (method.last + 1 - method.first)

end Method

namespace ClassFile

/--
In the file with the given raw lines the method stands in this context.  It is
the one that its raw lines give, moved to its place.
-/
structure Placed
    (file : ClassFile)
    (rawLines : List Bytes)
    (index : Nat)
    (method : Method)
    (context : Outline.Context)
    (extent : List Bytes) : Prop where
  rawLines_eq : rawLines = context.rawLines extent
  index_eq : index = context.index
  isRun : Outline.IsRun (Outline.entries extent)
  composed : file.Composed (Line.scan .body 1 rawLines) (context.runs extent)
    (context.others extent)
  method_eq : method = Method.ofLines index
    ((Outline.kept (Outline.entries extent)).map
      (IndexedLine.shift context.before.length))

theorem exists_placed_of_read
    {settings : Settings}
    {path : String}
    {label : Nat}
    {source : Bytes}
    {file : ClassFile}
    (read : (ClassFile.read settings path label source).outcome = .ok file)
    {index : Nat}
    {method : Method}
    (found : file.methods[index]? = some method) :
    ∃ context extent,
      file.Placed (Lines.split source) index method context extent := by
  rcases exists_composed_of_read read with ⟨runs, others, composed⟩
  rw [composed.getElem?_methods, Option.map_eq_some_iff] at found
  rcases found with ⟨run, runFound, rfl⟩
  have framed := composed.divided.exists_context runFound
  rcases framed with ⟨context, extent, isRun, rawLinesEqual, rfl, rfl, rfl⟩
  refine ⟨context, extent, rawLinesEqual, rfl, isRun, composed, ?_⟩
  rw [context.getElem?_runs_index] at runFound
  rw [← Option.some.inj runFound, Outline.kept_shift]

namespace Placed

variable {file : ClassFile} {rawLines : List Bytes} {index : Nat}
  {method : Method}
  {context : Outline.Context} {extent : List Bytes}

theorem bounds (placed : file.Placed rawLines index method context extent) :
    method.first = context.before.length ∧
      method.last + 1 = context.before.length + extent.length := by
  have isRun :=
    (Outline.isRun_shift_iff context.before.length _).mpr placed.isRun
  have group := isRun.group (context.entries_rawLines placed.isRun)
  have begins : 0 < extent.length := by
    rcases placed.isRun.exists_ends with ⟨header, inner, closer, equal, -⟩
    rw [← Outline.length_entries, equal]
    exact Nat.zero_lt_succ _
  rw [Outline.kept_shift, ← Method.lines_ofLines index, ← placed.method_eq,
    List.length_map, Outline.length_entries, Outline.length_entries] at group
  rw [Method.first, Method.last, group.head, group.getLast, Option.getD_some,
    Option.getD_some]
  omega

theorem extent_eq (placed : file.Placed rawLines index method context extent) :
    method.extent rawLines = extent := by
  rw [Method.extent, placed.bounds.2, placed.bounds.1, Nat.add_sub_cancel_left,
    placed.rawLines_eq, Outline.Context.rawLines, List.drop_left,
    List.take_left]

/-- The lines around a method, with others in their middle. -/
theorem rawLines_around
    (placed : file.Placed rawLines index method context extent)
    (other : List Bytes) :
    rawLines.take method.first ++ (other ++ rawLines.drop (method.last + 1)) =
      context.rawLines other := by
  rw [placed.bounds.1, placed.bounds.2, placed.rawLines_eq,
    Outline.Context.rawLines, List.take_left, ← List.drop_drop, List.drop_left,
    List.drop_left]
  rfl

/--
The same lines give the same method in another place, up to the distance and the
label.
-/
theorem shift_eq
    (placed : file.Placed rawLines index method context extent)
    (position label : Nat) :
    (Method.ofLines label ((Outline.kept (Outline.entries extent)).map
        (IndexedLine.shift position))).shift method.first =
      (method.shift position).relabel label := by
  rw [placed.bounds.1, placed.method_eq, ← Method.ofLines_shift,
    ← Method.ofLines_shift, IndexedLine.map_shift_shift,
    IndexedLine.map_shift_shift, Method.ofLines_relabel, Nat.add_comm]

end Placed

/-! ## Reading a method alone -/

theorem exists_read_alone
    {limits : Settings}
    {declaration alone : Bytes}
    {extent : List Bytes}
    (declares : declaration.trim.startsWith ".class" = true)
    (isRun : Outline.IsRun (Outline.entries extent))
    (lines : Lines.split alone = declaration :: extent)
    (admits : limits.Admits (Lines.split alone))
    (path : String)
    (label : Nat) :
    ∃ file, (ClassFile.read limits path label alone).outcome = .ok file ∧
      file.methods =
        #[Method.ofLines 0 ((Outline.kept (Outline.entries extent)).map
        (IndexedLine.shift 1))] := by
  have outside : Region.after .body ([declaration].map Bytes.trim) = .body :=
    Region.opened_eq_body declares (by decide)
  have entries : Outline.entries ([declaration] ++ extent) =
      Outline.entries [declaration] ++
        ((Outline.entries extent).map (IndexedLine.shift 1) ++ []) := by
    rw [Outline.entries_append outside, List.append_nil]
    rfl
  let line : Line := { text := declaration.trim, number := 1 }
  have first : Outline.entries [declaration] = [(0, line)] := rfl
  have header : Outline.Divided [(0, line)] [] [(0, line)] := by
    refine .other ?_ .nil
    rw [Line.opensMethod,
      Bytes.startsWith_eq_false_of_apart declares ".method" (by decide),
      Bool.and_false]
  have divided := header.append
    (.method ((Outline.isRun_shift_iff 1 (Outline.entries extent)).mpr isRun)
      .nil)
  rw [← first, ← entries, List.append_nil, List.singleton_append, ← lines,
    first] at divided
  have described :
      (Attributes.ofLines [(0, line)]).descriptor.isSome = true := by
    rw [Attributes.descriptor_ofLines, List.map_singleton, List.foldl_cons,
      List.foldl_nil, Option.or_none]
    exact Attributes.isSome_declared? rfl declares
  rcases exists_read_of_divided admits divided described path label with
    ⟨file, read, composed⟩
  refine ⟨file, read, ?_⟩
  rw [← Outline.kept_shift]
  exact Array.toList_inj.mp composed.methods_eq

/-! ## Replacing a method -/

section Replaced

variable {context : Outline.Context} {extent other : List Bytes}
  {file changed : ClassFile}
  {lines otherLines : List Line}

/-- The methods in front of the replaced one stay as they are. -/
theorem getElem?_methods_of_lt
    (composed : file.Composed lines (context.runs extent)
      (context.others extent))
    (replaced : changed.Composed otherLines (context.runs other)
      (context.others other))
    {position : Nat}
    (before : position < context.index) :
    changed.methods[position]? = file.methods[position]? := by
  rw [composed.getElem?_methods, replaced.getElem?_methods,
    context.getElem?_runs_of_lt extent before,
    context.getElem?_runs_of_lt other before]

/-- The methods behind the replaced one only move. -/
theorem getElem?_methods_of_gt
    (composed : file.Composed lines (context.runs extent)
      (context.others extent))
    (replaced : changed.Composed otherLines (context.runs other)
      (context.others other))
    {position : Nat}
    (behind : context.index < position) :
    changed.methods[position]?.map (Method.shift extent.length) =
      file.methods[position]?.map (Method.shift other.length) := by
  rw [composed.getElem?_methods, replaced.getElem?_methods,
    context.getElem?_runs_of_gt extent behind,
    context.getElem?_runs_of_gt other behind, Option.map_map, Option.map_map,
    Option.map_map, Option.map_map]
  congr 1
  funext run
  simp only [Function.comp_apply, Outline.kept_shift, ← Method.ofLines_shift,
    IndexedLine.map_shift_shift, Nat.add_right_comm]

end Replaced

/--
With any closed method in the place of one of its methods, a file is still
accepted.
-/
theorem exists_replaced_of_isRun
    {settings : Settings}
    {path : String}
    {label : Nat}
    {source : Bytes}
    {file : ClassFile}
    (read : (ClassFile.read settings path label source).outcome = .ok file)
    {index : Nat}
    {method : Method}
    (found : file.methods[index]? = some method)
    {other : List Bytes}
    (isRun : Outline.IsRun (Outline.entries other))
    {limits : Settings}
    {replaced : Bytes}
    (lines : Lines.split replaced = (Lines.split source).take method.first ++
      (other ++ (Lines.split source).drop (method.last + 1)))
    (admits : limits.Admits (Lines.split replaced))
    (place : String)
    (number : Nat) :
    ∃ context extent changed,
      file.Placed (Lines.split source) index method context extent ∧
      (ClassFile.read limits place number replaced).outcome = .ok changed ∧
      changed.Composed (Line.scan .body 1 (Lines.split replaced))
        (context.runs other)
        (context.others other) := by
  rcases exists_placed_of_read read found with ⟨context, extent, placed⟩
  rw [placed.rawLines_around] at lines
  have divided := context.divided isRun
  have declares := placed.composed.declares
  rw [← lines] at divided
  rw [context.descriptor_others extent other] at declares
  rcases exists_read_of_divided admits divided declares place number with
    ⟨changed, changedRead, composed⟩
  exact ⟨context, extent, changed, placed, changedRead, composed⟩

/--
A method is what its raw lines make of it, wherever they stand.  Alone behind
the declaration of a class they give the same method, apart from its label and
from the distance between the two places.  In the place of any method they leave
the file accepted and every other method as it was, apart from the distance by
which the methods behind them move.
-/
theorem methods_isolated
    {settings : Settings}
    {path : String}
    {label : Nat}
    {source : Bytes}
    {file : ClassFile}
    (read : (ClassFile.read settings path label source).outcome = .ok file)
    {index : Nat}
    {method : Method}
    (found : file.methods[index]? = some method) :
    (∀ (limits : Settings) (place : String) (number : Nat)
      (declaration alone : Bytes), declaration.trim.startsWith ".class" = true →
      Lines.split alone = declaration :: method.extent (Lines.split source) →
      limits.Admits (Lines.split alone) →
      ∃ solo single,
      (ClassFile.read limits place number alone).outcome = .ok solo ∧
        solo.methods = #[single] ∧
        single.shift method.first = (method.shift 1).relabel 0) ∧
    ∀ (donorSettings : Settings) (donorPath : String) (donorLabel : Nat)
      (donor : Bytes)
      (donorFile : ClassFile) (donorIndex : Nat) (donorMethod : Method)
        (limits : Settings)
      (place : String) (number : Nat) (replaced : Bytes),
      (ClassFile.read donorSettings donorPath donorLabel donor).outcome =
        .ok donorFile →
      donorFile.methods[donorIndex]? = some donorMethod →
      Lines.split replaced = (Lines.split source).take method.first ++
        (donorMethod.extent (Lines.split donor) ++
          (Lines.split source).drop (method.last + 1)) →
      limits.Admits (Lines.split replaced) →
      ∃ changed inserted,
        (ClassFile.read limits place number replaced).outcome = .ok changed ∧
        changed.methods.size = file.methods.size ∧
        changed.methods[index]? = some inserted ∧
        inserted.shift donorMethod.first =
          (donorMethod.shift method.first).relabel index ∧
        (∀ other < index, changed.methods[other]? = file.methods[other]?) ∧
        ∀ other > index,
          changed.methods[other]?.map
            (Method.shift (method.extent (Lines.split source)).length) =
            file.methods[other]?.map
              (Method.shift (donorMethod.extent
                (Lines.split donor)).length) := by
  rcases exists_placed_of_read read found with ⟨context, extent, placed⟩
  rw [placed.extent_eq]
  constructor
  · intro limits place number declaration alone declares lines admits
    rcases exists_read_alone declares placed.isRun lines admits
        place number with
      ⟨solo, soloRead, methods⟩
    exact ⟨solo, _, soloRead, methods, placed.shift_eq 1 0⟩
  · intro donorSettings donorPath donorLabel donor donorFile donorIndex
      donorMethod limits place
      number replaced donorRead donorFound lines admits
    rcases exists_placed_of_read donorRead donorFound with
      ⟨donorContext, other, donorPlaced⟩
    rw [donorPlaced.extent_eq] at lines ⊢
    rw [placed.rawLines_around] at lines
    have divided := context.divided donorPlaced.isRun
    have declares := placed.composed.declares
    rw [← lines] at divided
    rw [context.descriptor_others extent other] at declares
    rcases exists_read_of_divided admits divided declares place number with
      ⟨changed, changedRead, composed⟩
    rw [placed.bounds.1]
    cases placed.index_eq
    refine ⟨changed, _, changedRead, ?_, ?_,
      donorPlaced.shift_eq context.before.length _, fun position before =>
      getElem?_methods_of_lt placed.composed composed before,
      fun position behind =>
        getElem?_methods_of_gt placed.composed composed behind⟩
    · rw [composed.size_methods, placed.composed.size_methods,
        context.length_runs]
    · rw [composed.getElem?_methods, context.getElem?_runs_index,
        Option.map_some, Outline.kept_shift]

/-- The raw lines of a method with a jump and a directive for a line number. -/
def jumpLines : List String :=
  [".method public b()V", ".line 7", "goto :end", ":end", "return-void",
    ".end method"]

/-- A class with three methods, the second of which consists of these lines. -/
def threeMethods (second : List String) : Bytes :=
  sourceOf ([".class public LA;", ".method public a()V", "return-void",
    ".end method"] ++
    second ++ [".method public c()V", "goto :end", ":end", "return-void",
      ".end method"])

/-- The raw lines of a method whose jump leads nowhere. -/
def brokenLines : List String :=
  [".method public d()V", "goto :nowhere", ".end method"]

/--
The second method of the class is the same when it is read alone.  When a method
without control flow replaces it, the other two stay as they are.
-/
theorem methods_isolated_from_brokenLines :
    ∃ file method solo single changed inserted,
      (ClassFile.read Settings.standard "" 0 (threeMethods jumpLines)).outcome =
        .ok file ∧
      file.methods[1]? = some method ∧
      (ClassFile.read Settings.standard "" 0
        (sourceOf (".class LB;" :: jumpLines))).outcome = .ok solo ∧
      solo.methods = #[single] ∧ single.shift 4 = (method.shift 1).relabel 0 ∧
      (ClassFile.read Settings.standard "" 0
        (threeMethods brokenLines)).outcome = .ok changed ∧
      changed.methods.size = file.methods.size ∧
      changed.methods[1]? = some inserted ∧
      inserted.fault.isSome = true ∧ changed.methods[0]? = file.methods[0]? ∧
      changed.methods[2]?.map (Method.shift 6) =
        file.methods[2]?.map (Method.shift 3) := by
  have view : (ClassFile.read Settings.standard "" 0
      (threeMethods jumpLines)).outcome.toOption.map
        (fun file => file.methods[1]?.map fun method =>
          (method.first, method.last,
            method.extent (Lines.split (threeMethods jumpLines)))) =
      some (some (4, 9, jumpLines.map Bytes.ofString)) := by
    decide +kernel
  have donorView : (ClassFile.read Settings.standard "" 0
      (sourceOf (".class LB;" :: brokenLines))).outcome.toOption.map
        (fun file => file.methods[0]?.map fun method =>
          (method.extent (Lines.split (sourceOf (".class LB;" :: brokenLines))),
            method.fault.isSome)) =
      some (some (brokenLines.map Bytes.ofString, true)) := by
    decide +kernel
  have aloneLines : Lines.split (sourceOf (".class LB;" :: jumpLines)) =
      Bytes.ofString ".class LB;" :: jumpLines.map Bytes.ofString := by
    decide +kernel
  have changedLines : Lines.split (threeMethods brokenLines) =
      (Lines.split (threeMethods jumpLines)).take 4 ++
        (brokenLines.map Bytes.ofString ++
          (Lines.split (threeMethods jumpLines)).drop (9 + 1)) := by
    decide +kernel
  rcases exists_ok_of_view view with ⟨file, read, shown⟩
  rcases Option.map_eq_some_iff.mp shown with ⟨method, found, values⟩
  simp only [Prod.mk.injEq] at values
  rcases values with ⟨first, last, extent⟩
  rcases exists_ok_of_view donorView with ⟨donorFile, donorRead, donorShown⟩
  rcases Option.map_eq_some_iff.mp donorShown with
    ⟨donorMethod, donorFound, donorValues⟩
  rw [Prod.mk.injEq] at donorValues
  have isolated := methods_isolated read found
  rw [extent, first, last] at isolated
  rcases isolated with ⟨alone, replaced⟩
  rcases alone Settings.standard "" 0 (Bytes.ofString ".class LB;") _
    (by decide) aloneLines
    (by decide +kernel) with ⟨solo, single, soloRead, methods, equal⟩
  rw [← donorValues.1] at changedLines
  rcases replaced Settings.standard "" 0 _ donorFile 0 donorMethod
    Settings.standard "" 0 _
    donorRead donorFound changedLines (by decide +kernel) with
    ⟨changed, inserted, changedRead, size, insertedFound, insertedEqual,
      earlier, later⟩
  refine ⟨file, method, solo, single, changed, inserted, read, found, soloRead,
    methods, equal, changedRead, size, insertedFound, ?_,
    earlier 0 Nat.zero_lt_one, ?_⟩
  · have fault := congrArg (fun method => method.fault.isSome) insertedEqual
    simp only [Method.shift, Method.relabel, Option.isSome_map] at fault
    rw [fault, donorValues.2]
  · have moved := later 2 (Nat.lt_succ_self 1)
    rw [donorValues.1] at moved
    exact moved

end ClassFile

end SmaliFlow
