import SmaliFlow.ClassFile.Region
import SmaliFlow.Flow.Listing

/-!
# Regions and tables

The lines of a class file carry what their regions decide.  The region scan
threads one state through the file, and the predicate of this module says that a
run of lines carries the readings which that state gives from some region on.

The main statement concerns tables.  Inside a table every line has been decided
by its surroundings, so nothing is executed until a line with the closing
bracket of either form ends the table.
-/

namespace SmaliFlow

/-! ## Texts that begin differently -/

namespace Bytes

theorem startsWith_eq_false_of_apart
    {bytes : Bytes}
    {word : String}
    (starts : bytes.startsWith word = true)
    (other : String)
    (apart : (ofString word).isPrefixOf (ofString other) = false ∧
      (ofString other).isPrefixOf (ofString word) = false) :
    bytes.startsWith other = false := by
  cases both : bytes.startsWith other with
  | false => rfl
  | true =>
      rw [startsWith, List.isPrefixOf_iff_prefix] at starts both
      rcases List.prefix_or_prefix_of_prefix starts both with
        wordFirst | otherFirst
      · rw [← List.isPrefixOf_iff_prefix, apart.1] at wordFirst
        cases wordFirst
      · rw [← List.isPrefixOf_iff_prefix, apart.2] at otherFirst
        cases otherFirst

/-- Trimming keeps a first octet that is not padding. -/
theorem exists_trim_cons
    {octet : UInt8}
    (visible : Octet.isPadding octet = false)
    (rest : Bytes) :
    ∃ kept, trim (octet :: rest) = octet :: kept := by
  rw [trim, List.dropWhile_cons_of_neg (by simp [visible]), List.reverse_cons,
    List.dropWhile_append]
  split
  · simp [visible]
  · simp

end Bytes

theorem Instruction.isCode_read_of_dot (rest : Bytes) :
    (Instruction.read (0x2e :: rest)).isCode = false := by
  have visible : Octet.isPadding 0x2e = false := by decide
  rcases Bytes.exists_trim_cons visible rest with ⟨kept, trimmed⟩
  rw [read, trimmed]
  simp only [readDirective]
  cases CatchDirective.scan? (0x2e :: kept) with
  | none =>
      simp only
      split <;> rfl
  | some _ => rfl

namespace Flow.TableForm

theorem startsWith_of_opened?
    {text : Bytes}
    {form : TableForm}
    (opens : opened? text = some form) :
    text.startsWith ".packed-switch" = true ∨
      text.startsWith ".sparse-switch" = true := by
  unfold opened? at opens
  split at opens
  · exact Or.inl (by assumption)
  · split at opens
    · exact Or.inr (by assumption)
    · cases opens

/-- A line that opens a table is not executed. -/
theorem isCode_read_of_opened?
    {text : Bytes}
    {form : TableForm}
    (opens : opened? text = some form) :
    (Instruction.read text).isCode = false := by
  have dotted : ∃ rest, text = 0x2e :: rest := by
    rcases startsWith_of_opened? opens with packed | sparse
    · rw [Bytes.startsWith, List.isPrefixOf_iff_prefix] at packed
      rcases packed with ⟨rest, rfl⟩
      exact ⟨_, rfl⟩
    · rw [Bytes.startsWith, List.isPrefixOf_iff_prefix] at sparse
      rcases sparse with ⟨rest, rfl⟩
      exact ⟨_, rfl⟩
  rcases dotted with ⟨rest, rfl⟩
  exact Instruction.isCode_read_of_dot rest

end Flow.TableForm

/-! ## Regions of tables -/

namespace Region

open SmaliFlow.Flow

theorem opened_of_opened?
    {text : Bytes}
    {form : TableForm}
    (opens : TableForm.opened? text = some form) :
    Region.opened text = .switchTable := by
  have starts := TableForm.startsWith_of_opened? opens
  have apart (word : String)
      (packed : (Bytes.ofString ".packed-switch").isPrefixOf
        (Bytes.ofString word) = false ∧
        (Bytes.ofString word).isPrefixOf (Bytes.ofString ".packed-switch") =
          false)
      (sparse : (Bytes.ofString ".sparse-switch").isPrefixOf
        (Bytes.ofString word) = false ∧
        (Bytes.ofString word).isPrefixOf (Bytes.ofString ".sparse-switch") =
          false) :
      text.startsWith word = false := by
    rcases starts with packedStart | sparseStart
    · exact Bytes.startsWith_eq_false_of_apart packedStart word packed
    · exact Bytes.startsWith_eq_false_of_apart sparseStart word sparse
  have annotation := apart ".annotation" (by decide) (by decide)
  have subannotation := apart ".subannotation" (by decide) (by decide)
  have arrayData := apart ".array-data" (by decide) (by decide)
  simp only [Region.opened, annotation, subannotation, arrayData, Bool.or_self,
    Bool.false_eq_true, if_false, Bool.or_eq_true, starts, if_true]

/-- The words that open a region. -/
def openers : List String :=
  [".annotation", ".subannotation", ".array-data", ".packed-switch",
    ".sparse-switch"]

/-- Whether a word and the words that open regions begin differently. -/
def isApart (word : String) : Bool :=
  openers.all fun opener =>
    !(Bytes.ofString word).isPrefixOf (Bytes.ofString opener) &&
      !(Bytes.ofString opener).isPrefixOf (Bytes.ofString word)

/-- A line that begins with a word of its own opens no region. -/
theorem opened_eq_body
    {text : Bytes}
    {word : String}
    (starts : text.startsWith word = true)
    (apart : isApart word = true) :
    opened text = .body := by
  have silent : ∀ opener ∈ openers, text.startsWith opener = false := by
    intro opener member
    have differs := List.all_eq_true.mp apart opener member
    rw [Bool.and_eq_true, Bool.not_eq_true', Bool.not_eq_true'] at differs
    exact Bytes.startsWith_eq_false_of_apart starts opener differs
  simp only [openers, List.forall_mem_cons] at silent
  rcases silent with ⟨outer, nested, arrayData, packed, sparse, -⟩
  simp [opened, outer, nested, arrayData, packed, sparse]

/-- Only a closing bracket, of whichever form, ends the region of a table. -/
theorem next_switchTable
    {text : Bytes}
    (unclosed : ∀ form : TableForm, form.isClosedBy text = false) :
    next .switchTable text = .switchTable := by
  have packed := unclosed .packed
  have sparse := unclosed .sparse
  simp only [TableForm.isClosedBy] at packed sparse
  simp [next, packed, sparse]

/-- Every region but the body decides that its lines are not executed. -/
theorem eq_body_or_reading (region : Region) :
    region = .body ∨
      ∃ instruction,
        region.reading = .given instruction ∧ instruction.isCode = false := by
  cases region with
  | body => exact Or.inl rfl
  | metadata depth => exact Or.inr ⟨.metadata, rfl, rfl⟩
  | arrayData => exact Or.inr ⟨.data, rfl, rfl⟩
  | switchTable => exact Or.inr ⟨.data, rfl, rfl⟩

end Region

/-- The region behind lines with the given texts. -/
def Region.after (region : Region) (texts : List Bytes) : Region :=
  texts.foldl next region

theorem Region.after_cons
    (region : Region)
    (text : Bytes)
    (texts : List Bytes) :
    region.after (text :: texts) = (region.next text).after texts :=
  rfl

theorem Region.after_append (region : Region) (front back : List Bytes) :
    region.after (front ++ back) = (region.after front).after back :=
  List.foldl_append

/-! ## Lines that carry their readings -/

namespace Line

/-- The lines carry the readings that the region scan gives from a region on. -/
def Regional : (region : Region) → (lines : List Line) → Prop
  | _, [] => True
  | region, line :: lines =>
      line.reading = region.reading ∧ Regional (region.next line.text) lines

theorem Regional.exists_of_append
    {region : Region}
    {front back : List Line}
    (regional : Regional region (front ++ back)) :
    ∃ later, Regional later back := by
  induction front generalizing region with
  | nil => exact ⟨region, regional⟩
  | cons line front ih => exact ih regional.2

theorem Regional.of_append
    {region : Region}
    {front back : List Line}
    (regional : Regional region (front ++ back)) :
    Regional region front := by
  induction front generalizing region with
  | nil => trivial
  | cons line front ih => exact ⟨regional.1, ih regional.2⟩

theorem Regional.back
    {region : Region}
    {front back : List Line}
    (regional : Regional region (front ++ back)) :
    Regional (region.after (front.map Line.text)) back := by
  induction front generalizing region with
  | nil => exact regional
  | cons line front ih => exact ih regional.2

theorem Regional.region_eq_body
    {region : Region}
    {line : Line}
    {lines : List Line}
    (regional : Regional region (line :: lines))
    (own : line.isGiven = false) :
    region = .body := by
  rcases region.eq_body_or_reading with body | ⟨instruction, decided, -⟩
  · exact body
  · rw [isGiven, regional.1, decided] at own
    cases own

/-- What the surroundings decide is never an instruction. -/
theorem Regional.own_of_isCode
    {region : Region}
    {line : Line}
    {lines : List Line}
    (regional : Regional region (line :: lines))
    (code : line.isCode = true) :
    line.isGiven = false := by
  rcases region.eq_body_or_reading with rfl | ⟨instruction, decided, silent⟩
  · rw [isGiven, regional.1]
    rfl
  · rw [isCode, Line.instruction, regional.1, decided] at code
    simp [silent] at code

/-- An instruction is what its own text says. -/
theorem Regional.isCode_read
    {region : Region}
    {lines : List Line}
    (regional : Regional region lines)
    {line : Line}
    (member : line ∈ lines)
    (code : line.isCode = true) :
    (Instruction.read line.text).isCode = true := by
  rcases List.append_of_mem member with ⟨front, back, rfl⟩
  rcases regional.exists_of_append with ⟨here, rest⟩
  have own := rest.own_of_isCode code
  unfold isCode instruction at code
  unfold isGiven at own
  cases reading : line.reading with
  | pending => simpa [reading] using code
  | done => simpa [reading] using code
  | given => simp [reading] at own

/-- Nothing is executed in a table before a closing bracket of either form. -/
theorem Regional.exists_closing
    {inside lines : List Line}
    {code : Line}
    (regional : Regional .switchTable (inside ++ code :: lines))
    (executed : code.isCode = true) :
    ∃ line ∈ inside, line.isGiven = true ∧
      ∃ form : Flow.TableForm, form.isClosedBy line.text = true := by
  induction inside with
  | nil =>
      have body := regional.region_eq_body (regional.own_of_isCode executed)
      cases body
  | cons line inside ih =>
      by_cases closed : ∃ form : Flow.TableForm,
        form.isClosedBy line.text = true
      · refine ⟨line, List.mem_cons_self, ?_, closed⟩
        rw [isGiven, regional.1]
        rfl
      · have unclosed : ∀ form : Flow.TableForm,
            form.isClosedBy line.text = false := by
          intro form
          cases closing : form.isClosedBy line.text with
          | false => rfl
          | true => exact (closed ⟨form, closing⟩).elim
        have rest := regional.2
        rw [Region.next_switchTable unclosed] at rest
        rcases ih rest with ⟨found, member, given, closing⟩
        exact ⟨found, List.mem_cons_of_mem line member, given, closing⟩

end Line

end SmaliFlow
