import SmaliFlow.Proofs.Marking

/-!
# Accepted files

Reading a file goes through it once and checks the limits on the way.  This
module separates the two.  The limits are a condition on the raw lines; the
lines that reading gives are a function of the raw lines alone.  A file is
accepted exactly if its raw lines obey the limits, its lines can be divided into
methods and others, and the others declare a class.
-/

namespace SmaliFlow

/-- What a view of an outcome shows is what the view of its result shows. -/
theorem exists_ok_of_view
    {ε α β : Type}
    {outcome : Except ε α}
    {view : α → β}
    {value : β}
    (viewed : outcome.toOption.map view = some value) :
    ∃ result, outcome = .ok result ∧ view result = value := by
  cases outcome with
  | error cause => cases viewed
  | ok result => exact ⟨result, rfl, Option.some.inj viewed⟩

/-- The raw lines are short enough, each of them and all together. -/
structure Settings.Admits (settings : Settings) (rawLines : List Bytes) :
    Prop where
  each : ∀ raw ∈ rawLines, raw.length ≤ settings.maxLineLength
  total : rawLines.flatten.length ≤ settings.maxFileSize

instance (settings : Settings) (rawLines : List Bytes) :
    Decidable (settings.Admits rawLines) :=
  decidable_of_iff
    ((∀ raw ∈ rawLines, raw.length ≤ settings.maxLineLength) ∧
      rawLines.flatten.length ≤ settings.maxFileSize)
    ⟨fun limits => ⟨limits.1, limits.2⟩,
      fun admits => ⟨admits.each, admits.total⟩⟩

namespace Line

/--
The lines that raw lines give from a region on; the first has the given number.
-/
def scan : (region : Region) → (number : Nat) → (rawLines : List Bytes) →
  List Line
  | _, _, [] => []
  | region, number, raw :: rawLines =>
      { text := raw.trim, number, reading := region.reading } ::
        scan (region.next raw.trim) (number + 1) rawLines

theorem length_scan (region : Region) (number : Nat) (rawLines : List Bytes) :
    (scan region number rawLines).length = rawLines.length := by
  induction rawLines generalizing region number with
  | nil => rfl
  | cons raw rawLines ih => rw [scan, List.length_cons, ih, List.length_cons]

theorem scan_append (region : Region) (number : Nat) (front back : List Bytes) :
    scan region number (front ++ back) =
      scan region number front ++
        scan (region.after (front.map Bytes.trim))
          (number + front.length) back := by
  induction front generalizing region number with
  | nil => rfl
  | cons raw front ih =>
      rw [List.cons_append, scan, scan, ih, List.cons_append, List.map_cons,
        Region.after_cons, List.length_cons, Nat.add_right_comm, Nat.add_assoc]

/-- The lines carry the readings of their regions. -/
theorem regional_scan (region : Region) (number : Nat) (rawLines : List Bytes) :
    Regional region (scan region number rawLines) := by
  induction rawLines generalizing region number with
  | nil => trivial
  | cons raw rawLines ih => exact ⟨rfl, ih _ _⟩

theorem map_text_scan (region : Region) (number : Nat) (rawLines : List Bytes) :
    (scan region number rawLines).map Line.text = rawLines.map Bytes.trim := by
  induction rawLines generalizing region number with
  | nil => rfl
  | cons raw rawLines ih => rw [scan, List.map_cons, ih, List.map_cons]

/-- No line has been classified by its own text. -/
theorem reading_of_mem_scan
    {region : Region}
    {number : Nat}
    {rawLines : List Bytes}
    {line : Line}
    (member : line ∈ scan region number rawLines) :
    line.reading ≠ .done := by
  induction rawLines generalizing region number with
  | nil => cases member
  | cons raw rawLines ih =>
      rcases List.mem_cons.mp member with rfl | later
      · cases region <;> simp [Region.reading]
      · exact ih later

/--
As long as no line has been classified, a known kind has been given by the
surroundings.
-/
theorem knownKind?_eq_none_iff {line : Line} (fresh : line.reading ≠ .done) :
    line.knownKind? = none ↔ line.isGiven = false := by
  cases reading : line.reading with
  | done => exact absurd reading fresh
  | pending => simp [knownKind?, isGiven, reading]
  | given instruction => simp [knownKind?, isGiven, reading]

/-- Reading goes through exactly if the remaining lines obey the limits. -/
theorem readFrom_eq_ok_iff
    (settings : Settings)
    (path : String)
    (rawLines : List Bytes)
    (number size : Nat)
    (region : Region)
    (lines result : Array Line) :
    readFrom settings path rawLines number size region lines = .ok result ↔
      (∀ raw ∈ rawLines, raw.length ≤ settings.maxLineLength) ∧
      (rawLines = [] ∨ size + rawLines.flatten.length ≤ settings.maxFileSize) ∧
      result = lines ++ (scan region number rawLines).toArray := by
  induction rawLines generalizing number size region lines with
  | nil => simp [readFrom, scan, eq_comm]
  | cons raw rawLines ih =>
      have sizes : (rawLines = [] ∨
            size + raw.length + rawLines.flatten.length ≤
              settings.maxFileSize) ∧
          size + raw.length ≤ settings.maxFileSize ↔
          size + (raw :: rawLines).flatten.length ≤ settings.maxFileSize := by
        rw [List.flatten_cons, List.length_append, ← Nat.add_assoc]
        constructor
        · rintro ⟨rfl | total, first⟩
          · exact first
          · exact total
        · intro total
          exact ⟨Or.inr total, Nat.le_of_add_right_le total⟩
      rw [readFrom, scan, List.forall_mem_cons, ← sizes]
      split
      · rename_i long
        simp [Nat.not_le.mpr long]
      · rename_i short
        split
        · rename_i large
          simp [Nat.not_le.mpr large]
        · rename_i small
          rw [ih, Array.push_eq_append, Array.append_assoc, List.toArray_cons]
          simp [Nat.not_lt.mp short, Nat.not_lt.mp small]

/--
The lines of a file are the scan of its raw lines, provided that these obey the
limits.
-/
theorem readAll_eq_ok_iff
    (settings : Settings)
    (path : String)
    (source : Bytes)
    (lines : Array Line) :
    readAll settings path source = .ok lines ↔
      settings.Admits (Lines.split source) ∧
        lines = (scan .body 1 (Lines.split source)).toArray := by
  rw [readAll, readFrom_eq_ok_iff, Nat.zero_add, Array.empty_append,
    ← and_assoc]
  refine and_congr_left fun _ => ⟨fun limits => ⟨limits.1, ?_⟩, fun limits =>
    ⟨limits.each, Or.inr limits.total⟩⟩
  rcases limits.2 with empty | total
  · rw [empty]
    exact Nat.zero_le _
  · exact total

theorem regional_readAll
    {settings : Settings}
    {path : String}
    {source : Bytes}
    {lines : Array Line}
    (read : readAll settings path source = .ok lines) :
    Regional .body lines.toList := by
  rcases (readAll_eq_ok_iff settings path source lines).mp read with ⟨-, rfl⟩
  exact regional_scan .body 1 (Lines.split source)

end Line

/--
The attributes are those of the lines outside of methods as they have been read.
-/
theorem ClassFile.ofOutline_eq
    {lines : List Line}
    {outline : Outline}
    (outlined : Outline.ofLines lines.toArray = .ok outline)
    (settings : Settings)
    (path : String)
    (label : Nat) :
    (ofOutline settings path label lines.toArray outline).outcome =
      match (Attributes.ofLines outline.others).descriptor with
      | some descriptor =>
          .ok (assemble settings path label
            (assignLines outline.compiled.toArray lines.toArray)
              outline.compiled.toArray
            (Attributes.ofLines outline.others) descriptor)
      | none => .error (.malformed .missingClass) := by
  have others := Outline.othersIn_assignLines outlined
  rw [Outline.compiled] at others
  simp only [ofOutline, others]
  cases (Attributes.ofLines outline.others).descriptor <;> rfl

/--
A file is accepted exactly if it obeys the limits, can be divided and declares a
class.
-/
theorem ClassFile.read_eq_ok_iff
    (settings : Settings)
    (path : String)
    (label : Nat)
    (source : Bytes)
    (file : ClassFile) :
    (ClassFile.read settings path label source).outcome = .ok file ↔
      settings.Admits (Lines.split source) ∧ ∃ outline descriptor,
        Outline.ofLines (Line.scan .body 1 (Lines.split source)).toArray =
          .ok outline ∧
        (Attributes.ofLines outline.others).descriptor = some descriptor ∧
        file = assemble settings path label
          (assignLines outline.compiled.toArray
            (Line.scan .body 1 (Lines.split source)).toArray)
          outline.compiled.toArray (Attributes.ofLines outline.others)
            descriptor := by
  constructor
  · intro read
    unfold ClassFile.read at read
    cases readLines : Line.readAll settings path source with
    | error cause =>
        rw [readLines] at read
        cases read
    | ok lines =>
        rcases (Line.readAll_eq_ok_iff settings path source lines).mp
            readLines with
          ⟨admits, rfl⟩
        refine ⟨admits, ?_⟩
        rw [readLines] at read
        simp only at read
        cases outlined :
            Outline.ofLines (Line.scan .body 1
              (Lines.split source)).toArray with
        | error cause =>
            rw [outlined] at read
            cases read
        | ok outline =>
            rw [outlined] at read
            simp only [ofOutline_eq outlined] at read
            cases declared : (Attributes.ofLines outline.others).descriptor with
            | none =>
                rw [declared] at read
                cases read
            | some descriptor =>
                rw [declared] at read
                cases read
                exact ⟨outline, descriptor, rfl, declared, rfl⟩
  · rintro ⟨admits, outline, descriptor, outlined, declared, rfl⟩
    have readLines :=
      (Line.readAll_eq_ok_iff settings path source _).mpr ⟨admits, rfl⟩
    simp only [ClassFile.read, readLines, outlined, ofOutline_eq outlined,
      declared]

end SmaliFlow
