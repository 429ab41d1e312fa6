import SmaliFlow.Application.Basic
import SmaliFlow.Proofs.Reading
import SmaliFlow.Proofs.Terminators

/-!
# The limit on the size of a file

The size of a file is checked twice.  When the file is taken from the file
system, all its octets count, and at most one octet beyond the limit is looked
at.  When its lines are read, their octets count, and the terminators do not.

The lines of a text never have more octets than the text.  So the second check
refuses no file that the first one lets pass, and its counter stays within the
numbers that can be counted.
-/

namespace SmaliFlow

/-! ## The octets of the lines -/

namespace Lines

/-- The lines are left when the terminators are taken out of the text. -/
theorem flatten_lines_sublist (ended : List Ended) (last : Option Bytes) :
    (ended.map Ended.line ++ last.toList).flatten.Sublist
      (join ended last) := by
  induction ended with
  | nil => cases last <;> simp [join]
  | cons entry ended ih =>
      rw [List.map_cons, List.cons_append, List.flatten_cons, join_cons,
        Ended.octets]
      exact (List.sublist_append_left _ _).append ih

/-- The lines of a text have at most as many octets as the text. -/
theorem length_flatten_split_le (bytes : Bytes) :
    (split bytes).flatten.length ≤ bytes.length := by
  rcases existsUnique_written bytes with ⟨written, rfl, -⟩
  rw [split_octets]
  exact (flatten_lines_sublist written.ended written.last).length_le

end Lines

/-! ## Reading the lines -/

namespace Line

/-- A sum of two counts, as long as it can be counted. -/
def countedSum (size more : Nat) : Option Nat :=
  if size + more ≤ Settings.largestCount then some (size + more) else none

/--
Read the remaining lines of a file like `readFrom`, with a counter for the
octets that is never to run over: there is no outcome at all if it does.
-/
def readCounted (settings : Settings) (path : String) :
    (rawLines : List Bytes) → (number size : Nat) → (region : Region) →
      (lines : Array Line) → Option (Except SourceError (Array Line))
  | [], _, _, _, lines => some (.ok lines)
  | raw :: rawLines, number, size, region, lines =>
      if settings.maxLineLength < raw.length then
        some (.error (.lineTooLong path number settings.maxLineLength))
      else do
        let size ← countedSum size raw.length
        if settings.maxFileSize < size then
          return .error (.fileTooLarge path settings.maxFileSize)
        else
          let text := raw.trim
          let line : Line := { text, number, reading := region.reading }
          readCounted settings path rawLines (number + 1) size
            (region.next text)
            (lines.push line)

/-- The counter does not run over as long as all octets can be counted. -/
theorem readCounted_eq
    (settings : Settings)
    (path : String)
    {rawLines : List Bytes}
    (number : Nat)
    {size : Nat}
    (region : Region)
    (lines : Array Line)
    (countable : size + rawLines.flatten.length ≤ Settings.largestCount) :
    readCounted settings path rawLines number size region lines =
      some (readFrom settings path rawLines number size region lines) := by
  induction rawLines generalizing number size region lines with
  | nil => rfl
  | cons raw rawLines ih =>
      rw [List.flatten_cons, List.length_append, ← Nat.add_assoc] at countable
      have sum : countedSum size raw.length = some (size + raw.length) :=
        if_pos (Nat.le_of_add_right_le countable)
      rw [readCounted, readFrom, sum]
      split
      · rfl
      · dsimp only [Option.bind_eq_bind, Option.bind_some]
        split
        · rfl
        · exact ih _ _ _ countable

/-- Lines that are small enough together are not refused for their size. -/
theorem readFrom_ne_fileTooLarge
    (settings : Settings)
    (path : String)
    {rawLines : List Bytes}
    (number : Nat)
    {size : Nat}
    (region : Region)
    (lines : Array Line)
    (total : size + rawLines.flatten.length ≤ settings.maxFileSize)
    (named : String)
    (limit : Nat) :
    readFrom settings path rawLines number size region lines ≠
      .error (.fileTooLarge named limit) := by
  induction rawLines generalizing number size region lines with
  | nil =>
      intro failed
      cases failed
  | cons raw rawLines ih =>
      rw [List.flatten_cons, List.length_append, ← Nat.add_assoc] at total
      rw [readFrom, if_neg (Nat.not_lt.mpr (Nat.le_of_add_right_le total))]
      split
      · intro failed
        cases failed
      · exact ih _ _ _ total

end Line

namespace ClassFile

/-- Only the lines can be too large. -/
theorem readAll_of_outcome_fileTooLarge
    {settings : Settings}
    {path named : String}
    {label limit : Nat}
    {source : Bytes}
    (failed : (read settings path label source).outcome =
      .error (.fileTooLarge named limit)) :
    Line.readAll settings path source = .error (.fileTooLarge named limit) := by
  unfold read at failed
  split at failed
  · rename_i cause refused
    rw [refused]
    cases failed
    rfl
  · split at failed
    · cases failed
    · unfold ofOutline at failed
      dsimp only at failed
      split at failed
      · cases failed
      · cases failed

end ClassFile

/-! ## Taking a file from a file system -/

/--
A path leads to a file with this content, the length of which can be counted.
-/
structure FileSystem.HasFile
    (system : FileSystem)
    (path : String)
    (content : Bytes) : Prop where
  found : system.read path = .ok content
  countable : content.length ≤ Settings.largestCount

namespace FileSystem.HasFile

variable {system : FileSystem} {path : String} {content : Bytes}

theorem readAtMost_eq (file : system.HasFile path content) (count : Nat) :
    system.readAtMost path count = .ok (content.take count) := by
  rw [readAtMost, file.found]
  rfl

/-- A file within the limit is taken from the file system as a whole. -/
theorem readAtMost_of_le
    (file : system.HasFile path content)
    {settings : Settings}
    (fits : content.length ≤ settings.maxFileSize) :
    system.readAtMost path settings.wantedCount = .ok content := by
  have wanted : content.length ≤ settings.wantedCount :=
    Nat.le_min.mpr ⟨Nat.le_succ_of_le fits, file.countable⟩
  rw [file.readAtMost_eq, List.take_of_length_le wanted]

/--
Of a file beyond the limit enough is taken from the file system to see this.
-/
theorem lt_length_take_of_lt
    (file : system.HasFile path content)
    {settings : Settings}
    (large : settings.maxFileSize < content.length) :
    settings.maxFileSize < (content.take settings.wantedCount).length := by
  have countable := Nat.lt_of_lt_of_le large file.countable
  rw [List.length_take, Nat.lt_min, Settings.wantedCount, Nat.lt_min]
  exact ⟨⟨Nat.lt_succ_self _, countable⟩, large⟩

end FileSystem.HasFile

namespace ClassFile

/--
A file is refused for its size if it has more octets than allowed.  Otherwise
all of it is taken from the file system and read, its lines are not refused for
their size again, and the counter of their octets never runs over.
-/
theorem load_agrees_with_read
    (settings : Settings)
    (system : FileSystem)
    (path : String)
    (content : Bytes)
    (file : system.HasFile path content)
    (label : Nat) :
    (settings.maxFileSize < content.length →
      load settings system path label =
        { events := [],
          outcome := .error (.fileTooLarge path settings.maxFileSize) }) ∧
    (content.length ≤ settings.maxFileSize →
      load settings system path label = read settings path label content ∧
      (∀ named limit, (read settings path label content).outcome ≠
        .error (.fileTooLarge named limit)) ∧
      system.readAtMost path settings.wantedCount = .ok content ∧
      Line.readCounted settings path (Lines.split content) 1 0 .body #[] =
        some (Line.readAll settings path content)) := by
  constructor
  · intro large
    rw [load, file.readAtMost_eq]
    exact if_pos (file.lt_length_take_of_lt large)
  · intro fits
    have whole := file.readAtMost_of_le fits
    have total : 0 + (Lines.split content).flatten.length ≤ content.length := by
      rw [Nat.zero_add]
      exact Lines.length_flatten_split_le content
    refine ⟨?_, ?_, whole, ?_⟩
    · rw [load, whole]
      exact if_neg (Nat.not_lt.mpr fits)
    · intro named limit failed
      exact Line.readFrom_ne_fileTooLarge settings path 1 .body #[]
        (Nat.le_trans total fits)
        named limit (readAll_of_outcome_fileTooLarge failed)
    · exact Line.readCounted_eq settings path 1 .body #[]
        (Nat.le_trans total file.countable)

/--
A file system with one class file, which has eleven octets, ten of them in its
line.
-/
def oneLine : FileSystem :=
  .ofWorking <| .directory [("A.smali", .file (Bytes.ofString ".class LA;\n"))]

/-- The settings with another limit on the size of a file. -/
def limitedTo (limit : Nat) : Settings :=
  { Settings.standard with maxFileSize := limit }

/--
The terminator counts when the file is taken from the file system, up to the
largest limit.
-/
theorem load_agrees_with_read_of_oneLine :
    oneLine.HasFile "A.smali" (Bytes.ofString ".class LA;\n") ∧
    load (limitedTo 10) oneLine "A.smali" 0 =
      { events := [], outcome := .error (.fileTooLarge "A.smali" 10) } ∧
    (∃ lines, Line.readAll (limitedTo 10) "A.smali"
      (Bytes.ofString ".class LA;\n") =
      .ok lines) ∧
    load (limitedTo 11) oneLine "A.smali" 0 =
      read (limitedTo 11) "A.smali" 0 (Bytes.ofString ".class LA;\n") ∧
    oneLine.readAtMost "A.smali" (limitedTo Settings.largestCount).wantedCount =
      .ok (Bytes.ofString ".class LA;\n") := by
  have file : oneLine.HasFile "A.smali" (Bytes.ofString ".class LA;\n") :=
    ⟨by rfl, by decide +kernel⟩
  have length : (Bytes.ofString ".class LA;\n").length = 11 := by decide +kernel
  have admitted :
      (limitedTo 10).Admits (Lines.split (Bytes.ofString ".class LA;\n")) := by
    decide +kernel
  refine ⟨file, ?_, ?_, ?_, ?_⟩
  · apply (load_agrees_with_read (limitedTo 10) _ _ _ file 0).1
    rw [length]
    exact Nat.lt_succ_self 10
  · exact ⟨_, (Line.readAll_eq_ok_iff _ _ _ _).mpr ⟨admitted, rfl⟩⟩
  · exact ((load_agrees_with_read (limitedTo 11) _ _ _ file 0).2
      (Nat.le_of_eq length)).1
  · exact ((load_agrees_with_read (limitedTo Settings.largestCount) _
      _ _ file 0).2
      file.countable).2.2.1

end ClassFile

end SmaliFlow
