import SmaliFlow.Instruction.Basic
import SmaliFlow.Text.Search

/-!
# Lines of a class file

A line keeps its trimmed octets and its number.  It is classified the first
time someone asks what it is, unless its surroundings have already decided
that: the body of a metadata bracket or of a table is never read as code.
-/

namespace SmaliFlow

/-- How far the classification of a line has come. -/
inductive Reading where
  /-- Nobody has asked yet. -/
  | pending
  /-- The line has been classified by its own text. -/
  | done
  /-- The surroundings of the line have decided what it is. -/
  | given (instruction : Instruction)
  deriving DecidableEq, Repr

/-- One trimmed line. -/
structure Line where
  text : Bytes
  /-- The place in the file, counted from one. -/
  number : Nat
  reading : Reading := .pending
  /-- The index of the method that owns the line. -/
  owner : Option Nat := none
  /-- The permission that the line has been tagged with. -/
  permission : Option String := none
  deriving DecidableEq, Repr

namespace Line

/-- A line that its own text will classify. -/
def ofText (text : Bytes) (number : Nat) : Line :=
  { text := text.trim, number }

/-- What the line is. -/
def instruction (line : Line) : Instruction :=
  match line.reading with
  | .given instruction => instruction
  | .pending | .done => Instruction.read line.text

/-- The kind of the line as far as it is known without classifying it. -/
def knownKind? (line : Line) : Option Kind :=
  match line.reading with
  | .pending => none
  | .done | .given _ => some line.instruction.kind

/-- Whether the surroundings of the line have decided what it is. -/
def isGiven (line : Line) : Bool :=
  match line.reading with
  | .given _ => true
  | .pending | .done => false

/-- The line after it has been classified. -/
def classify (line : Line) : Line :=
  match line.reading with
  | .pending => { line with reading := .done }
  | .done | .given _ => line

/-- Whether the line is executed. -/
def isCode (line : Line) : Bool :=
  line.instruction.isCode

/-- Whether the octets of the line begin with `beginning`. -/
def startsWith (line : Line) (beginning : Bytes) : Bool :=
  beginning.isPrefixOf line.text

/-- Whether `pattern` occurs in the line. -/
def contains (line : Line) (pattern : Bytes) : Bool :=
  Search.contains line.text pattern

/-- Tag the line with a permission.  A line keeps its first tag. -/
def tag (line : Line) (permission : String) : Line :=
  match line.permission with
  | none => { line with permission := some permission }
  | some _ => line

/-- Whether a tag would be kept. -/
def isTaggable (line : Line) : Bool :=
  line.permission.isNone

/-- The number, at least five columns wide, and the text. -/
def display (line : Line) : String :=
  let number := toString line.number
  "".pushn ' ' (5 - number.length) ++ number ++ ": " ++ Utf8.decode line.text

end Line

end SmaliFlow
