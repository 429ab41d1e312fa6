import SmaliFlow.Flow.Index
import SmaliFlow.Proofs.Listing

/-!
# Methods by positions

Control flow can be rebuilt with positions in place of rows: labels stand for
positions, links lead from one position to another, and whoever wants to know
what stands at a position looks it up in the list of indices and then in the
lines of the class.  This module and the ones that follow it do so with every
look-up checked.  A computation that uses an index out of range, or hands over
an interval that ends before it begins, is stuck and has no result.

A draft holds what the first pass over a method records: the positions of its
labels and which positions lie in a table.  The pass is stuck exactly if an
index of the method is out of range in the class.  Otherwise the draft says the
same as the listing.
-/

namespace SmaliFlow.Flow

/-! ## Checked computations -/

/-- What a computation comes to that checks all it does with positions. -/
inductive Checked (α : Type) where
  /-- An index is out of range, or an interval ends before it begins. -/
  | stuck
  /-- The method is at fault. -/
  | fault (cause : Fault)
  | value (result : α)

namespace Checked

variable {α β γ δ : Type}

instance : Monad Checked where
  pure := value
  bind outcome next :=
    match outcome with
    | stuck => stuck
    | fault cause => fault cause
    | value result => next result

@[simp]
theorem pure_eq (result : α) : (pure result : Checked α) = value result :=
  rfl

@[simp]
theorem stuck_bind (next : α → Checked β) : (stuck >>= next) = stuck :=
  rfl

@[simp]
theorem fault_bind (cause : Fault) (next : α → Checked β) :
    (fault cause >>= next) = fault cause :=
  rfl

@[simp]
theorem value_bind (result : α) (next : α → Checked β) :
    (value result >>= next) = next result :=
  rfl

instance : LawfulMonad Checked :=
  LawfulMonad.mk' Checked
    (fun outcome => by cases outcome <;> rfl)
    (fun _ _ => rfl)
    (fun outcome _ _ => by cases outcome <;> rfl)

/-- What a look-up finds. -/
def ofOption : Option α → Checked α
  | some result => value result
  | none => stuck

/-- What a computation comes to that uses no positions. -/
def ofExcept : Except Fault α → Checked α
  | .ok result => value result
  | .error cause => fault cause

@[simp]
theorem ofOption_some (result : α) : ofOption (some result) = value result :=
  rfl

@[simp]
theorem ofOption_none : ofOption (none : Option α) = stuck :=
  rfl

theorem ofOption_eq_stuck_iff {found : Option α} :
    ofOption found = stuck ↔ found = none := by
  cases found <;> simp

theorem ofOption_eq_value_iff {found : Option α} {result : α} :
    ofOption found = value result ↔ found = some result := by
  cases found <;> simp

@[simp]
theorem ofExcept_ok (result : α) : ofExcept (.ok result) = value result :=
  rfl

@[simp]
theorem ofExcept_error (cause : Fault) :
    ofExcept (.error cause : Except Fault α) = fault cause :=
  rfl

/--
Two computations go on alike if their next steps agree on what the first ones
give.
-/
theorem ofExcept_map_bind
    {outcome : Except Fault α}
    {view : α → β}
    {next : β → Checked γ}
    {plain : α → Except Fault δ}
    {finalView : δ → γ}
    (agree : ∀ result, outcome = .ok result →
      next (view result) = ofExcept ((plain result).map finalView)) :
    ofExcept (outcome.map view) >>= next =
      ofExcept ((outcome >>= plain).map finalView) := by
  cases outcome with
  | error cause => rfl
  | ok result => exact agree result rfl

/-- A pass over a list that meets no obstacle. -/
theorem mapM_eq_value
    {values : List α}
    {checked : α → Checked β}
    {view : α → β}
    (agree : ∀ value ∈ values, checked value = .value (view value)) :
    values.mapM checked = .value (values.map view) := by
  induction values with
  | nil => rfl
  | cons first values ih =>
      rcases List.forall_mem_cons.mp agree with ⟨here, later⟩
      rw [List.mapM_cons, here, ih later]
      rfl

/-- A pass over the keys of a list that meets no obstacle. -/
theorem mapM_map_eq_value
    {values : List α}
    {key : α → β}
    {checked : β → Checked γ}
    {view : α → γ}
    (agree : ∀ value ∈ values, checked (key value) = .value (view value)) :
    (values.map key).mapM checked = .value (values.map view) := by
  rw [List.mapM_map]
  exact mapM_eq_value agree

/-- A pass over a list that adds what each element gives to what it has. -/
theorem foldlM_eq_ofExcept
    {values : List α}
    {step : γ → α → Checked γ}
    {plain : α → Except Fault δ}
    (state : List δ → γ)
    (agree : ∀ value ∈ values, ∀ before, step (state before) value =
      ofExcept ((plain value).map fun part => state (before ++ [part])))
    (before : List δ) :
    values.foldlM step (state before) =
      ofExcept ((values.mapM plain).map fun parts =>
        state (before ++ parts)) := by
  induction values generalizing before with
  | nil => simp [pure, Except.pure, Except.map]
  | cons first values ih =>
      rcases List.forall_mem_cons.mp agree with ⟨here, later⟩
      rw [List.foldlM_cons, here, List.mapM_cons]
      apply ofExcept_map_bind
      intro part _
      rw [ih later]
      cases values.mapM plain with
      | error cause => rfl
      | ok parts => simp [Except.map, bind, Except.bind, pure, Except.pure]

/--
A pass over the keys of a list that adds what each one gives to what it has.
-/
theorem foldlM_map_eq_ofExcept
    {values : List α}
    {key : α → β}
    {step : γ → β → Checked γ}
    {plain : α → Except Fault δ}
    (state : List δ → γ)
    (agree : ∀ value ∈ values, ∀ before, step (state before) (key value) =
      ofExcept ((plain value).map fun part => state (before ++ [part])))
    (before : List δ) :
    (values.map key).foldlM step (state before) =
      ofExcept ((values.mapM plain).map fun parts =>
        state (before ++ parts)) := by
  rw [List.foldlM_map]
  exact foldlM_eq_ofExcept state agree before

/--
A pass over a list that leaves some elements out and collects what the others
give.
-/
theorem mapM_flatten_eq
    {values : List α}
    {keeps : α → Bool}
    {key : α → β}
    {checked : β → Checked (List γ)}
    {plain : α → Except Fault (List δ)}
    {view : δ → γ}
    (agree : ∀ value ∈ values, checked (key value) =
      if keeps value then
        ofExcept ((plain value).map (List.map view)) else .value []) :
    (do
      let parts ← (values.map key).mapM checked
      return parts.flatten) =
      ofExcept (((values.filter keeps).mapM plain).map fun parts =>
        parts.flatten.map view) := by
  induction values with
  | nil => rfl
  | cons first values ih =>
      rcases List.forall_mem_cons.mp agree with ⟨here, later⟩
      have rest := ih later
      rw [List.map_cons, List.mapM_cons, here]
      cases kept : keeps first with
      | false =>
          rw [List.filter_cons_of_neg (by simp [kept]), ← rest]
          simp
      | true =>
          rw [List.filter_cons_of_pos kept, List.mapM_cons, if_pos rfl]
          cases plain first with
          | error cause => rfl
          | ok part =>
              have longer :=
                congrArg (· >>= fun results => value (part.map view ++ results))
                  rest
              simp only [Except.map, ofExcept_ok, value_bind, bind_assoc,
                pure_eq] at longer ⊢
              refine longer.trans ?_
              cases (values.filter keeps).mapM plain with
              | error cause => rfl
              | ok parts => simp [bind, Except.bind, pure, Except.pure]

end Checked

/-- Set a mark in a list of marks. -/
def raise (marks : Array Bool) (index : Nat) : Checked (Array Bool) :=
  if index < marks.size then .value (marks.setIfInBounds index true) else .stuck

theorem raise_eq
    {marks : Array Bool}
    {index : Nat}
    (inside : index < marks.size) :
    raise marks index = .value (marks.setIfInBounds index true) :=
  if_pos inside

/-! ## Drafts -/

/-- A method by positions, after the first pass over its lines. -/
structure Draft where
  /-- The lines of the class. -/
  lines : Array Line
  /-- The indices of the lines of the method, by their positions. -/
  ids : Array Nat
  /-- The positions of the labels. -/
  labels : Std.TreeMap Bytes Nat
  /-- Which positions lie in a table. -/
  marks : Array Bool

/-- What the first pass has recorded so far, and the table that is open. -/
structure Survey where
  labels : Std.TreeMap Bytes Nat
  marks : Array Bool
  state : Option TableForm

namespace Survey

/-- Mark a position as part of a table. -/
def mark (survey : Survey) (position : Nat) (state : Option TableForm) :
    Checked Survey := do
  let marks ← raise survey.marks position
  return { survey with marks, state }

/-- Take in the line with an index at the next position. -/
def read (lines : Array Line) (survey : Survey) (entry : Nat × Nat) :
    Checked Survey := do
  let line ← .ofOption lines[entry.1]?
  match survey.state with
  | some form =>
      survey.mark entry.2 (if form.isClosedBy line.text then
        none else some form)
  | none =>
      match TableForm.opened? line.text with
      | some form => survey.mark entry.2 (some form)
      | none =>
          match line.instruction with
          | .label (some name) =>
              return { survey with
                labels := survey.labels.insertIfNew name entry.2 }
          | _ => return survey

/-- No line has been read. -/
def start (count : Nat) : Survey where
  labels := ∅
  marks := Array.replicate count false
  state := none

end Survey

namespace Draft

/-- The first pass over the lines with the given indices. -/
def ofIds (lines : Array Line) (ids : List Nat) : Checked Draft := do
  let survey ← ids.zipIdx.foldlM (Survey.read lines) (Survey.start ids.length)
  return {
    lines
    ids := ids.toArray
    labels := survey.labels
    marks := survey.marks }

/-- How many lines the method has. -/
def count (draft : Draft) : Nat :=
  draft.ids.size

/-- What stands at a position. -/
def row (draft : Draft) (position : Nat) : Checked Row := do
  let id ← .ofOption draft.ids[position]?
  let line ← .ofOption draft.lines[id]?
  let inTable ← .ofOption draft.marks[position]?
  return {
    position
    id
    number := line.number
    text := line.text
    instruction := line.instruction
    inTable }

/-- The position of a label, or the fault that there is none. -/
def resolve (draft : Draft) (name : Bytes) : Checked Nat :=
  match draft.labels[name]? with
  | some position => .value position
  | none => .fault (.unresolvedLabel name)

/--
The draft says of every position and of every label what the listing says.
-/
structure Reads (draft : Draft) (listing : Listing) : Prop where
  positioned : listing.Positioned
  count : draft.count = listing.length
  row : ∀ position, draft.row position = .ofOption listing[position]?
  label : ∀ name, draft.labels[name]? = (listing.label? name).map Row.position

end Draft

/-! ## The first pass -/

namespace Survey

/-- What the first pass records of a row. -/
def record (survey : Survey) (row : Row) : Survey where
  labels :=
    match row.definedLabel? with
    | some name => survey.labels.insertIfNew name row.position
    | none => survey.labels
  marks := if row.inTable then
    survey.marks.setIfInBounds row.position true else survey.marks
  state := (tableStep survey.state row.text).2

theorem read_eq
    {lines : Array Line}
    {id : Nat}
    {line : Line}
    (found : lines[id]? = some line)
    {survey : Survey}
    {position : Nat}
    (inside : position < survey.marks.size) :
    survey.read lines (id, position) =
      .value (survey.record (Listing.rowOf survey.state position id line)) := by
  rcases survey with ⟨labels, marks, state⟩
  simp only [read, found, Checked.ofOption_some, Checked.value_bind, record,
    Listing.rowOf, Row.definedLabel?]
  cases state with
  | some form => simp [tableStep, mark, raise_eq inside]
  | none =>
      cases opened : TableForm.opened? line.text with
      | some form => simp [tableStep, opened, mark, raise_eq inside]
      | none =>
          simp only [tableStep, opened]
          cases line.instruction with
          | label name => cases name <;> rfl
          | _ => rfl

/-- Reading a line never puts the method at fault. -/
theorem read_ne_fault
    (lines : Array Line)
    (survey : Survey)
    (entry : Nat × Nat)
    (cause : Fault) :
    survey.read lines entry ≠ .fault cause := by
  have mark (state : Option TableForm) :
      survey.mark entry.2 state ≠ .fault cause := by
    by_cases inside :
      entry.2 < survey.marks.size <;> simp [Survey.mark, raise, inside]
  rw [read]
  cases lines[entry.1]? with
  | none => simp
  | some line =>
      rw [Checked.ofOption_some, Checked.value_bind]
      cases survey.state with
      | some form => exact mark _
      | none =>
          cases TableForm.opened? line.text with
          | some form => exact mark _
          | none =>
              cases line.instruction with
              | label name => cases name <;> simp
              | _ => simp

theorem size_marks_record (survey : Survey) (row : Row) :
    (survey.record row).marks.size = survey.marks.size := by
  simp only [record]
  split
  · exact Array.size_setIfInBounds
  · rfl

/-- The first pass records the rows of the listing one after the other. -/
theorem foldlM_read_eq
    {lines : Array Line}
    {entries : List (Nat × Line)}
    (found : ∀ entry ∈ entries, lines[entry.1]? = some entry.2)
    {survey : Survey}
    {position : Nat}
    (inside : position + entries.length ≤ survey.marks.size) :
    ((entries.map Prod.fst).zipIdx position).foldlM (read lines) survey =
      .value ((Listing.rowsFrom entries survey.state position).foldl
        record survey) := by
  induction entries generalizing survey position with
  | nil => rfl
  | cons entry entries ih =>
      rcases List.forall_mem_cons.mp found with ⟨here, later⟩
      rw [List.length_cons] at inside
      rw [List.map_cons, List.zipIdx_cons, List.foldlM_cons,
        read_eq here (by omega),
        Checked.value_bind, ih later (by rw [size_marks_record]; omega)]
      rfl

/-- The first pass does not get past an index that is out of range. -/
theorem foldlM_read_eq_stuck
    {lines : Array Line}
    {entries : List (Nat × Nat)}
    {entry : Nat × Nat}
    (member : entry ∈ entries)
    (outside : lines.size ≤ entry.1)
    (survey : Survey) :
    entries.foldlM (read lines) survey = .stuck := by
  induction entries generalizing survey with
  | nil => cases member
  | cons first entries ih =>
      rw [List.foldlM_cons]
      rcases List.mem_cons.mp member with rfl | later
      · rw [read, Array.getElem?_eq_none outside]
        rfl
      · cases step : survey.read lines first with
        | stuck => rfl
        | fault cause =>
            exact absurd step (read_ne_fault lines survey first cause)
        | value next => exact ih later next

theorem getElem?_labels_record (survey : Survey) (row : Row) (name : Bytes) :
    (survey.record row).labels[name]? =
      survey.labels[name]?.or (if row.defines name then
        some row.position else none) := by
  rw [record, Row.defines]
  cases defined : row.definedLabel? with
  | none => simp
  | some other =>
      simp only [Std.TreeMap.getElem?_insertIfNew]
      by_cases same : other = name
      · subst same
        by_cases known : other ∈ survey.labels
        · simp [known]
        · simp [known]
      · have different : compare other name ≠ .eq := by
          simpa using same
        simp [different, same]

theorem getElem?_labels_foldl
    (rows : Listing)
    (survey : Survey)
    (name : Bytes) :
    (rows.foldl record survey).labels[name]? =
      survey.labels[name]?.or ((rows.label? name).map Row.position) := by
  induction rows generalizing survey with
  | nil => simp [Listing.label?]
  | cons row rows ih =>
      rw [List.foldl_cons, ih, getElem?_labels_record, Option.or_assoc]
      congr 1
      simp only [Listing.label?, List.find?_cons]
      by_cases defines : row.defines name
      · simp [defines]
      · simp [defines]

/--
A position is marked if it was marked before or has been taken in as part of a
table.
-/
theorem getElem?_marks_foldl
    (rows : List Row)
    (survey : Survey)
    (position : Nat) :
    (rows.foldl record survey).marks[position]? =
      survey.marks[position]?.map fun marked =>
        marked || rows.any fun row =>
          row.inTable && row.position == position := by
  induction rows generalizing survey with
  | nil => simp
  | cons row rows ih =>
      rw [List.foldl_cons, ih, List.any_cons, record]
      cases row.inTable with
      | false => simp
      | true =>
          simp only [if_true, Bool.true_and, Array.getElem?_setIfInBounds]
          by_cases same : row.position = position
          · subst same
            by_cases inside : row.position < survey.marks.size
            · simp [inside]
            · simp [inside]
          · simp [same, beq_false_of_ne same]

end Survey

namespace Draft

theorem any_inTable_eq
    {listing : Listing}
    (positioned : listing.Positioned)
    {row : Row}
    (member : row ∈ listing) :
    (listing.any fun other => other.inTable && other.position == row.position) =
      row.inTable := by
  rw [Bool.eq_iff_iff, List.any_eq_true]
  simp only [Bool.and_eq_true, beq_iff_eq]
  constructor
  · rintro ⟨other, otherMember, inTable, same⟩
    rwa [← positioned.eq_of_position_eq otherMember member same]
  · intro inTable
    exact ⟨row, member, inTable, rfl⟩

/-- What the first pass records makes up a draft that says what the rows say. -/
theorem reads_ofLines
    {lines : Array Line}
    {entries : List (Nat × Line)}
    (found : ∀ entry ∈ entries, lines[entry.1]? = some entry.2) :
    let survey :=
      (Listing.ofLines entries).foldl Survey.record
        (Survey.start entries.length)
    Reads
      { lines, ids := (entries.map Prod.fst).toArray, labels := survey.labels
        marks := survey.marks }
      (Listing.ofLines entries) where
  positioned := Listing.positioned_ofLines entries
  count := by
    have ids := congrArg List.length (Listing.ids_ofLines entries)
    simpa [count, Listing.ids] using ids.symm
  row position := by
    have row := Listing.getElem?_rowsFrom entries none 0 position
    rw [← Listing.ofLines_eq] at row
    cases atPosition : entries[position]? with
    | none => simp [Draft.row, row, atPosition]
    | some entry =>
        rw [atPosition, Option.map_some] at row
        have inside : position < entries.length :=
          (List.getElem?_eq_some_iff.mp atPosition).1
        have marked := any_inTable_eq (Listing.positioned_ofLines entries)
          (List.mem_of_getElem? row)
        have line := found entry (List.mem_of_getElem? atPosition)
        have id : (entries.map Prod.fst).toArray[position]? = some entry.1 := by
          simp [atPosition]
        simp only [Listing.rowOf, Nat.zero_add] at marked row
        simp only [Draft.row, id, row, Checked.ofOption_some,
          Checked.value_bind, line, Survey.getElem?_marks_foldl, marked]
        simp [Survey.start, inside]
  label name := by
    rw [Survey.getElem?_labels_foldl]
    simp [Survey.start]

/--
Lines whose indices are in range have a draft that says what their listing says.
-/
theorem exists_reads
    {lines : Array Line}
    {ids : List Nat}
    {listing : Listing}
    (listed : Listing.ofIds? lines ids = some listing) :
    ∃ draft, ofIds lines ids = .value draft ∧ draft.Reads listing := by
  rcases Listing.ofIds?_eq_some_iff.mp listed with ⟨entries, rfl, found, rfl⟩
  have room : 0 + entries.length ≤
      (Survey.start entries.length).marks.size := by
    simp [Survey.start]
  have surveyed := Survey.foldlM_read_eq found room
  refine ⟨_, ?_, reads_ofLines found⟩
  rw [ofIds, List.length_map, surveyed, Listing.ofLines_eq]
  rfl

/-- The first pass is stuck if an index of the method is out of range. -/
theorem ofIds_eq_stuck
    {lines : Array Line}
    {ids : List Nat}
    {id : Nat}
    (member : id ∈ ids)
    (outside : lines.size ≤ id) :
    ofIds lines ids = .stuck := by
  have entry : ∃ entry ∈ ids.zipIdx, entry.1 = id := by
    rwa [← List.mem_map, List.zipIdx_map_fst]
  rcases entry with ⟨entry, entryMember, rfl⟩
  rw [ofIds, Survey.foldlM_read_eq_stuck entryMember outside]
  rfl

end Draft

end SmaliFlow.Flow
