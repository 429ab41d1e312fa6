import SmaliFlow.Proofs.Coverage

/-!
# Which lines belong to a method

An accepted file has one line for each raw line.  A method owns the lines from
its header to the line that closes it, apart from the directives between them
that give line numbers.  The methods follow one another in the order of their
headers and share no line, and every line records the one method that owns it.
-/

namespace SmaliFlow

namespace Outline

/-! ## The lines of one method -/

/--
The lines from `first` to `last` are those of one method, and `ids` are their
indices without the directives that give line numbers.
-/
structure Group (lines : Array Line) (first last : Nat) (ids : List Nat) :
    Prop where
  head : ids.head? = some first
  getLast : ids.getLast? = some last
  opens : lines[first]?.map Line.opensMethod = some true
  closes : lines[last]?.map Line.closesMethod = some true
  inner : ∀ id, first < id → id < last →
    lines[id]?.map Line.opensMethod = some false ∧
      lines[id]?.map Line.closesMethod = some false
  mem_iff : ∀ id, id ∈ ids ↔
    first ≤ id ∧ id ≤ last ∧ lines[id]?.map Line.isLineDirective = some false

section Segment

variable {lines : List Line} {before run after : List IndexedLine}

theorem mem_segment_iff
    (split : indexed 0 lines = before ++ (run ++ after))
    (entry : IndexedLine) :
    entry ∈ run ↔
      before.length ≤ entry.1 ∧ entry.1 < before.length + run.length ∧
      lines[entry.1]? = some entry.2 := by
  rcases exists_append_of_indexed split with
    ⟨front, rest, rfl, -, length, rest_eq⟩
  rcases exists_append_of_indexed rest_eq.symm with
    ⟨middle, back, rfl, run_eq, size, -⟩
  rw [Nat.zero_add] at run_eq
  have lookup (position : Nat) (inside : position < middle.length) :
      (front ++ (middle ++ back))[before.length + position]? =
        middle[position]? := by
    rw [length, List.getElem?_append_right (Nat.le_add_right _ _),
      Nat.add_sub_cancel_left, List.getElem?_append_left inside]
  rw [run_eq, List.mem_iff_getElem?]
  constructor
  · rintro ⟨position, found⟩
    rw [getElem?_indexed, Option.map_eq_some_iff] at found
    rcases found with ⟨line, found, rfl⟩
    have inside := (List.getElem?_eq_some_iff.mp found).1
    refine ⟨Nat.le_add_right _ _, ?_, ?_⟩
    · rw [← run_eq, size]
      exact Nat.add_lt_add_left inside _
    · rw [← found]
      exact lookup position inside
  · rintro ⟨above, below, found⟩
    rcases Nat.exists_eq_add_of_le above with ⟨position, place⟩
    rw [← run_eq, size, place] at below
    rw [place, lookup position (Nat.lt_of_add_lt_add_left below)] at found
    refine ⟨position, ?_⟩
    rw [getElem?_indexed, found, Option.map_some, ← place]

theorem fst_of_getElem?_segment
    (split : indexed 0 lines = before ++ (run ++ after))
    {position : Nat}
    {entry : IndexedLine}
    (found : run[position]? = some entry) :
    entry.1 = before.length + position := by
  rcases exists_append_of_indexed split with ⟨front, rest, rfl, -, -, rest_eq⟩
  rcases exists_append_of_indexed rest_eq.symm with
    ⟨middle, back, rfl, run_eq, -⟩
  rw [Nat.zero_add] at run_eq
  rw [run_eq, getElem?_indexed, Option.map_eq_some_iff] at found
  rcases found with ⟨line, -, rfl⟩
  rfl

theorem kept_ends
    {header closer : IndexedLine}
    {inner : List IndexedLine}
    (opens : header.2.opensMethod = true)
    (closes : closer.2.closesMethod = true) :
    kept (header :: (inner ++ [closer])) =
      header :: (kept inner ++ [closer]) := by
  rw [kept_cons _ _ (Line.isLineDirective_of_opensMethod opens), kept_append,
    kept_cons _ _ (Line.isLineDirective_of_closesMethod closes)]
  rfl

/-- What remains of a method is a group of lines. -/
theorem IsRun.group
    (isRun : IsRun run)
    (split : indexed 0 lines = before ++ (run ++ after)) :
    Group lines.toArray before.length (before.length + run.length - 1)
      ((kept run).map Prod.fst) := by
  have member := mem_segment_iff split
  rcases isRun.exists_ends with
    ⟨header, inner, closer, equal, opens, closes, silent⟩
  have length : run.length = inner.length + 2 := by
    rw [equal]
    simp
  have headerPlace : run[0]? = some header := by
    rw [equal]
    rfl
  have closerPlace : run[inner.length + 1]? = some closer := by
    rw [equal]
    simp
  have headerFirst : header.1 = before.length :=
    fst_of_getElem?_segment split headerPlace
  have closerLast : closer.1 = before.length + run.length - 1 := by
    rw [fst_of_getElem?_segment split closerPlace, length]
    rfl
  have headerFound :=
    ((member header).mp (List.mem_of_getElem? headerPlace)).2.2
  have closerFound :=
    ((member closer).mp (List.mem_of_getElem? closerPlace)).2.2
  rw [headerFirst] at headerFound
  rw [closerLast] at closerFound
  refine ⟨?_, ?_, ?_, ?_, ?_, ?_⟩
  · rw [equal, kept_ends opens closes, List.map_cons, List.head?_cons,
      headerFirst]
  · rw [closerLast.symm, equal, kept_ends opens closes, ← List.cons_append,
      List.map_append, List.map_singleton, List.getLast?_concat]
  · rw [List.getElem?_toArray, headerFound, Option.map_some, opens]
  · rw [List.getElem?_toArray, closerFound, Option.map_some, closes]
  · intro id above below
    rcases Nat.exists_eq_add_of_lt above with ⟨offset, rfl⟩
    have inside : offset < inner.length := by omega
    have place : run[offset + 1]? = some (inner.get ⟨offset, inside⟩) := by
      rw [equal, List.getElem?_cons_succ, List.getElem?_append_left inside]
      exact List.getElem?_eq_getElem inside
    have found := ((member _).mp (List.mem_of_getElem? place)).2.2
    rw [fst_of_getElem?_segment split place] at found
    rw [Nat.add_assoc, List.getElem?_toArray, found, Option.map_some,
      Option.map_some]
    have both := silent _ (List.get_mem inner ⟨offset, inside⟩)
    exact ⟨congrArg some both.1, congrArg some both.2⟩
  · intro id
    rw [List.getElem?_toArray, Option.map_eq_some_iff, List.mem_map]
    constructor
    · rintro ⟨entry, remains, rfl⟩
      rcases List.mem_filter.mp remains with ⟨inside, own⟩
      rcases (member entry).mp inside with ⟨above, below, found⟩
      exact ⟨above, by omega, entry.2, found, by simpa using own⟩
    · rintro ⟨above, below, line, found, own⟩
      have inside := (member (id, line)).mpr ⟨above, by omega, found⟩
      exact ⟨(id, line), List.mem_filter.mpr ⟨inside, by simpa using own⟩, rfl⟩

end Segment

/-- The indices of the lines that open a method. -/
def openers (lines : Array Line) : List Nat :=
  (List.range lines.size).filter fun id =>
    lines[id]?.map Line.opensMethod == some true

theorem openers_toArray (lines : List Line) :
    openers lines.toArray =
      ((indexed 0 lines).filter fun entry => entry.2.opensMethod).map
        Prod.fst := by
  have indices :
      List.range lines.toArray.size = (indexed 0 lines).map Prod.fst := by
    rw [map_fst_indexed, List.size_toArray, List.range_eq_range']
  rw [openers, indices, List.filter_map]
  congr 1
  apply List.filter_congr
  intro entry member
  rw [List.mem_iff_getElem?] at member
  rcases member with ⟨position, found⟩
  rw [getElem?_indexed, Option.map_eq_some_iff] at found
  rcases found with ⟨line, found, rfl⟩
  simp [found]

end Outline

/-! ## The lines of a class -/

namespace Method

theorem label_ofLines (label : Nat) (entries : List IndexedLine) :
    (ofLines label entries).label = label := by
  simp only [ofLines, discover, build]
  cases Flow.Graph.build (Flow.Listing.ofLines entries) <;> rfl

end Method

namespace Line

theorem opensMethod_assign (line : Line) (method : Nat) :
    (line.assign method).opensMethod = line.opensMethod := by
  cases reading :
    line.reading <;> simp [opensMethod, assign, classify, isGiven, reading]

theorem closesMethod_assign (line : Line) (method : Nat) :
    (line.assign method).closesMethod = line.closesMethod := by
  cases reading :
    line.reading <;> simp [closesMethod, assign, classify, isGiven, reading]

theorem isLineDirective_assign (line : Line) (method : Nat) :
    (line.assign method).isLineDirective = line.isLineDirective := by
  cases reading :
    line.reading <;> simp [isLineDirective, assign, classify, isGiven, reading]

theorem map_scan (region : Region) (number : Nat) (rawLines : List Bytes) :
    ((scan region number rawLines).map fun line => (line.number, line.text)) =
      (rawLines.zipIdx number).map fun entry => (entry.2, entry.1.trim) := by
  induction rawLines generalizing region number with
  | nil => rfl
  | cons raw rawLines ih =>
      rw [scan, List.map_cons, ih, List.zipIdx_cons, List.map_cons]

theorem owner_of_mem_scan
    {region : Region}
    {number : Nat}
    {rawLines : List Bytes}
    {line : Line}
    (member : line ∈ scan region number rawLines) :
    line.owner = none := by
  induction rawLines generalizing region number with
  | nil => cases member
  | cons raw rawLines ih =>
      rcases List.mem_cons.mp member with rfl | later
      · rfl
      · exact ih later

end Line

theorem ClassFile.map_toList_assignLines
    {α : Type}
    (view : Line → α)
    (kept : ∀ (line : Line) (label : Nat), view (line.assign label) = view line)
    (methods : Array Method)
    (lines : Array Line) :
    (assignLines methods lines).toList.map view = lines.toList.map view := by
  apply List.ext_getElem?
  intro id
  rw [List.getElem?_map, List.getElem?_map, Array.getElem?_toList,
    Array.getElem?_toList]
  exact map_assignLines view kept methods lines id

theorem ClassFile.size_assignLines
    (methods : Array Method)
    (lines : Array Line) :
    (assignLines methods lines).size = lines.size := by
  have same := congrArg List.length
    (map_toList_assignLines (fun _ => ()) (fun _ _ => rfl) methods lines)
  rwa [List.length_map, List.length_map, Array.length_toList,
    Array.length_toList] at same

theorem Outline.openers_assignLines
    (methods : Array Method)
    (lines : Array Line) :
    openers (ClassFile.assignLines methods lines) = openers lines := by
  have opens :=
    ClassFile.map_assignLines _ Line.opensMethod_assign methods lines
  simp only [openers, ClassFile.size_assignLines, opens]

theorem Outline.Group.assignLines
    {lines : Array Line}
    {first last : Nat}
    {ids : List Nat}
    (group : Group lines first last ids)
    (methods : Array Method) :
    Group (ClassFile.assignLines methods lines) first last ids := by
  have opens :=
    ClassFile.map_assignLines _ Line.opensMethod_assign methods lines
  have closes :=
    ClassFile.map_assignLines _ Line.closesMethod_assign methods lines
  have directives :=
    ClassFile.map_assignLines _ Line.isLineDirective_assign methods lines
  constructor
  · exact group.head
  · exact group.getLast
  · rw [opens]
    exact group.opens
  · rw [closes]
    exact group.closes
  · intro id
    rw [opens, closes]
    exact group.inner id
  · intro id
    rw [directives]
    exact group.mem_iff id

/-- The methods of an outline come from the runs of the file. -/
theorem Outline.compiled_eq
    {outline : Outline}
    {runs : List (List IndexedLine)}
    (methods : outline.methods = runs.map kept) :
    outline.compiled = runs.mapIdx fun index run =>
      Method.ofLines index (kept run) := by
  apply List.ext_getElem?
  intro index
  rw [compiled, methods, List.getElem?_map, List.getElem?_zipIdx,
    List.getElem?_map, List.getElem?_mapIdx, Option.map_map, Option.map_map,
    Nat.zero_add]
  rfl

namespace ClassFile

/-- A line of one method only is marked with the label of that method. -/
theorem marked_of_mem
    {methods : List Method}
    {id : Nat}
    (distinct : (methods.flatMap Method.lines).Nodup)
    {method : Method}
    (member : method ∈ methods)
    (own : id ∈ method.lines)
    (line : Line) :
    marked methods id line = line.assign method.label := by
  rcases List.append_of_mem member with ⟨front, back, rfl⟩
  rw [List.flatMap_append, List.flatMap_cons, List.nodup_append] at distinct
  rcases distinct with ⟨-, distinctBack, apart⟩
  rw [List.nodup_append] at distinctBack
  have before : ∀ other ∈ front, id ∉ other.lines := by
    intro other otherMember shared
    exact apart id (List.mem_flatMap.mpr ⟨other, otherMember, shared⟩) id
      (List.mem_append_left _ own) rfl
  have behind : ∀ other ∈ back, id ∉ other.lines := by
    intro other otherMember shared
    exact distinctBack.2.2 id own id
      (List.mem_flatMap.mpr ⟨other, otherMember, shared⟩) rfl
  have first := marked_of_forall_not_mem before line
  have last := marked_of_forall_not_mem behind (line.assign method.label)
  rw [marked] at first last
  rw [marked, List.foldl_append, first, List.foldl_cons, if_pos own, last]

/--
The lines of the class are divided into these runs, from which its methods are
made.
-/
structure Composed
    (file : ClassFile)
    (lines : List Line)
    (runs : List (List IndexedLine))
    (others : List IndexedLine) : Prop where
  divided : Outline.Divided (Outline.indexed 0 lines) runs others
  methods_eq : file.methods.toList =
    runs.mapIdx fun index run => Method.ofLines index (Outline.kept run)
  lines_eq : file.lines = assignLines file.methods lines.toArray
  declares : (Attributes.ofLines others).descriptor.isSome = true

theorem exists_composed_of_read
    {settings : Settings}
    {path : String}
    {label : Nat}
    {source : Bytes}
    {file : ClassFile}
    (read : (ClassFile.read settings path label source).outcome = .ok file) :
    ∃ runs others,
      file.Composed (Line.scan .body 1 (Lines.split source)) runs others := by
  rcases (read_eq_ok_iff settings path label source file).mp read with
    ⟨-, outline, descriptor, outlined, declared, rfl⟩
  rcases (Outline.ofLines_eq_ok_iff _ outline).mp outlined with
    ⟨runs, divided, equal⟩
  refine ⟨runs, outline.others, divided, Outline.compiled_eq equal, rfl, ?_⟩
  rw [declared]
  rfl

/--
A file that obeys the limits is accepted if its lines can be divided and declare
a class.
-/
theorem exists_read_of_divided
    {settings : Settings}
    {source : Bytes}
    {runs : List (List IndexedLine)}
    {others : List IndexedLine}
    (admits : settings.Admits (Lines.split source))
    (divided : Outline.Divided
      (Outline.indexed 0 (Line.scan .body 1 (Lines.split source))) runs others)
    (declares : (Attributes.ofLines others).descriptor.isSome = true)
    (path : String)
    (label : Nat) :
    ∃ file, (ClassFile.read settings path label source).outcome = .ok file ∧
      file.Composed (Line.scan .body 1 (Lines.split source)) runs others := by
  rcases Option.isSome_iff_exists.mp declares with ⟨descriptor, declared⟩
  let outline : Outline := { methods := runs.map Outline.kept, others }
  have outlined :=
    (Outline.ofLines_eq_ok_iff (Line.scan .body 1 (Lines.split source)).toArray
      outline).mpr
      ⟨runs, divided, rfl⟩
  refine ⟨_, (read_eq_ok_iff settings path label source _).mpr
    ⟨admits, outline, descriptor, outlined, declared, rfl⟩, divided, ?_, rfl,
    declares⟩
  exact Outline.compiled_eq rfl

namespace Composed

variable {file : ClassFile} {lines : List Line} {runs : List (List IndexedLine)}
  {others : List IndexedLine}

theorem getElem?_methods
    (composed : file.Composed lines runs others)
    (index : Nat) :
    file.methods[index]? =
      runs[index]?.map fun run => Method.ofLines index (Outline.kept run) := by
  rw [← Array.getElem?_toList, composed.methods_eq, List.getElem?_mapIdx]

theorem size_methods (composed : file.Composed lines runs others) :
    file.methods.size = runs.length := by
  rw [← Array.length_toList, composed.methods_eq, List.length_mapIdx]

theorem map_lines (composed : file.Composed lines runs others) :
    file.methods.toList.map Method.lines =
      runs.map fun run => (Outline.kept run).map Prod.fst := by
  apply List.ext_getElem?
  intro index
  rw [List.getElem?_map, Array.getElem?_toList, composed.getElem?_methods,
    List.getElem?_map, Option.map_map]
  congr 1
  funext run
  exact Method.lines_ofLines index _

/--
The lines of all methods, one behind the other, stand in the order of the file.
-/
theorem ascending (composed : file.Composed lines runs others) :
    (file.methods.toList.flatMap Method.lines).Pairwise (· < ·) := by
  have owned : file.methods.toList.flatMap Method.lines =
      (Outline.kept runs.flatten).map Prod.fst := by
    rw [List.flatMap_def, composed.map_lines, Outline.kept, List.filter_flatten,
      List.map_flatten, List.map_map]
    rfl
  have remaining : (Outline.kept runs.flatten).Sublist runs.flatten :=
    List.filter_sublist
  have inFile := (remaining.trans composed.divided.flatten_sublist).map Prod.fst
  rw [Outline.map_fst_indexed] at inFile
  rw [owned]
  exact List.Pairwise.sublist inFile List.pairwise_lt_range'

theorem group
    (composed : file.Composed lines runs others)
    {index : Nat}
    {method : Method}
    (found : file.methods[index]? = some method) :
    method.label = index ∧ ∃ first last,
      Outline.Group file.lines first last method.lines := by
  rw [composed.getElem?_methods, Option.map_eq_some_iff] at found
  rcases found with ⟨run, place, rfl⟩
  rcases List.append_of_mem (List.mem_of_getElem? place) with
    ⟨front, back, split⟩
  rcases composed.divided.exists_of_append split with
    ⟨isRun, before, after, _, _, segments, -⟩
  have group := isRun.group segments
  rw [← Method.lines_ofLines index] at group
  have marked := group.assignLines file.methods
  rw [← composed.lines_eq] at marked
  exact ⟨Method.label_ofLines index _, _, _, marked⟩

/-- The methods begin with the lines that open one, in the same order. -/
theorem heads (composed : file.Composed lines runs others) :
    (file.methods.toList.map fun method => method.lines.head?) =
      (Outline.openers file.lines).map some := by
  have first : ∀ run ∈ runs,
      ((Outline.kept run).map Prod.fst).head? = run.head?.map Prod.fst := by
    intro run member
    rcases List.append_of_mem member with ⟨front, back, split⟩
    rcases composed.divided.exists_of_append split with ⟨⟨opens, -⟩, -⟩
    rw [Outline.kept_cons _ _ (Line.isLineDirective_of_opensMethod opens)]
    rfl
  calc (file.methods.toList.map fun method => method.lines.head?)
      = (file.methods.toList.map Method.lines).map List.head? := by
        rw [List.map_map]
        rfl
    _ = runs.map fun run => run.head?.map Prod.fst := by
        rw [composed.map_lines, List.map_map]
        exact List.map_congr_left first
    _ = (runs.map List.head?).map (Option.map Prod.fst) := by
        rw [List.map_map]
        rfl
    _ = (Outline.openers file.lines).map some := by
        rw [← composed.divided.filter_opensMethod, composed.lines_eq,
          Outline.openers_assignLines, Outline.openers_toArray, List.map_map,
          List.map_map]
        rfl

/-- A line records the method that owns it. -/
theorem owner_iff
    (composed : file.Composed lines runs others)
    (free : ∀ line ∈ lines, line.owner = none)
    {id : Nat}
    {line : Line}
    (found : file.lines[id]? = some line)
    (index : Nat) :
    line.owner = some index ↔
      ∃ method, file.methods[index]? = some method ∧ id ∈ method.lines := by
  have distinct : (file.methods.toList.flatMap Method.lines).Nodup :=
    composed.ascending.imp Nat.ne_of_lt
  rw [composed.lines_eq, getElem?_assignLines, Option.map_eq_some_iff] at found
  rcases found with ⟨original, place, rfl⟩
  rw [List.getElem?_toArray] at place
  constructor
  · intro recorded
    by_cases owned : ∃ method ∈ file.methods.toList, id ∈ method.lines
    · rcases owned with ⟨method, member, own⟩
      rcases List.mem_iff_getElem?.mp member with ⟨position, methodFound⟩
      rw [Array.getElem?_toList] at methodFound
      rw [marked_of_mem distinct member own] at recorded
      have labelled : method.label = index := Option.some.inj recorded
      rw [(composed.group methodFound).1] at labelled
      rw [← labelled]
      exact ⟨method, methodFound, own⟩
    · have foreign : ∀ method ∈ file.methods.toList, id ∉ method.lines :=
        fun method member own => owned ⟨method, member, own⟩
      rw [marked_of_forall_not_mem foreign,
        free original (List.mem_of_getElem? place)] at recorded
      cases recorded
  · rintro ⟨method, methodFound, own⟩
    have labelled := (composed.group methodFound).1
    rw [← Array.getElem?_toList] at methodFound
    rw [marked_of_mem distinct (List.mem_of_getElem? methodFound) own,
      ← labelled]
    rfl

end Composed

/--
An accepted file has one line for each raw line, with its number and trimmed.
Each method owns the lines from its header to the line that closes it, apart
from the directives for line numbers.  The methods follow one another in the
order of their headers, and a line records the method that owns it.
-/
theorem read_partitions_lines
    {settings : Settings}
    {path : String}
    {label : Nat}
    {source : Bytes}
    {file : ClassFile}
    (read : (ClassFile.read settings path label source).outcome = .ok file) :
    (file.lines.toList.map fun line => (line.number, line.text)) =
      ((Lines.split source).zipIdx 1).map (fun entry =>
        (entry.2, entry.1.trim)) ∧
    (∀ (index : Nat) (method : Method), file.methods[index]? = some method →
      method.label = index ∧ ∃ first last,
      Outline.Group file.lines first last method.lines) ∧
    (file.methods.toList.map fun method => method.lines.head?) =
      (Outline.openers file.lines).map some ∧
    (file.methods.toList.flatMap Method.lines).Pairwise (· < ·) ∧
    ∀ (id : Nat) (line : Line), file.lines[id]? = some line → ∀ index : Nat,
      line.owner = some index ↔
        ∃ method, file.methods[index]? = some method ∧ id ∈ method.lines := by
  rcases exists_composed_of_read read with ⟨runs, others, composed⟩
  refine ⟨?_, fun index method found => composed.group found, composed.heads,
    composed.ascending, fun id line found => ?_⟩
  · rw [composed.lines_eq, map_toList_assignLines _ ?_, Line.map_scan]
    intro line method
    cases reading : line.reading <;> simp [Line.assign, Line.classify, reading]
  · exact composed.owner_iff (fun line => Line.owner_of_mem_scan) found

/--
Two methods.  The first holds a directive that gives a line number, and metadata
with lines that would open a method or give a line number elsewhere.
-/
def quotedDirectives : Bytes :=
  sourceOf
    [".class public LA;", ".end method", ".method public a()V", ".line 1",
      ".annotation build LX;", ".method", ".line 3", ".end annotation",
      "return-void", ".end method", ".field f:I", ".method public b()V",
      ".end method"]

/--
The first method goes from line 2 to line 9 and does not own the directive on
line 3.
-/
theorem read_partitions_quotedDirectives :
    ∃ file, (ClassFile.read Settings.standard "" 0 quotedDirectives).outcome =
      .ok file ∧
      file.methods.toList.map Method.lines = [[2, 4, 5, 6, 7, 8, 9], [11, 12]] ∧
      Outline.openers file.lines = [2, 11] ∧
      Outline.Group file.lines 2 9 [2, 4, 5, 6, 7, 8, 9] ∧
      (∀ line, file.lines[3]? = some line → line.owner = none) ∧
      ∀ line, file.lines[12]? = some line → line.owner = some 1 := by
  have view : (ClassFile.read Settings.standard "" 0
    quotedDirectives).outcome.toOption.map
      (fun file => file.methods.toList.map Method.lines) =
        some [[2, 4, 5, 6, 7, 8, 9], [11, 12]] := by
    decide +kernel
  rcases exists_ok_of_view view with ⟨file, read, owned⟩
  have linesAt (index : Nat) : (file.methods[index]?).map Method.lines =
      [[2, 4, 5, 6, 7, 8, 9], [11, 12]][index]? := by
    rw [← Array.getElem?_toList, ← List.getElem?_map, owned]
  rcases read_partitions_lines read with ⟨-, groups, heads, -, owners⟩
  rcases Option.map_eq_some_iff.mp (linesAt 0) with ⟨method, found, lines⟩
  rcases groups 0 method found with ⟨-, first, last, group⟩
  rw [lines] at group
  cases group.head
  cases group.getLast
  refine ⟨file, read, owned, ?_, group, ?_, ?_⟩
  · have headsEqual : (file.methods.toList.map Method.lines).map List.head? =
        (Outline.openers file.lines).map some := by
      rw [List.map_map]
      exact heads
    rw [owned] at headsEqual
    exact (List.map_inj_right fun _ _ => Option.some.inj).mp headsEqual.symm
  · intro line lineFound
    cases recorded : line.owner with
    | none => rfl
    | some index =>
        rcases (owners 3 line lineFound index).mp recorded with
          ⟨holder, holderFound, held⟩
        have listed := linesAt index
        rw [holderFound] at listed
        have absent : ∀ ids ∈ [[2, 4, 5, 6, 7, 8, 9], [11, 12]], 3 ∉ ids := by
          decide
        exact (absent _ (List.mem_of_getElem? listed.symm) held).elim
  · intro line lineFound
    rcases Option.map_eq_some_iff.mp (linesAt 1) with
      ⟨second, secondFound, secondLines⟩
    refine (owners 12 line lineFound 1).mpr ⟨second, secondFound, ?_⟩
    rw [secondLines]
    decide

end ClassFile

end SmaliFlow
