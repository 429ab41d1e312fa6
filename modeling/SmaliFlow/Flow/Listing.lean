import SmaliFlow.Line
import SmaliFlow.Flow.Fault

/-!
# Listings

The listing of a method is the sequence of its lines, each with its position in
the method.  Lines of a switch table are data: from the line that opens a table
to the line that closes it, nothing is executed and no label is defined.  A
label resolves to the first line outside every table that defines it.
-/

namespace SmaliFlow.Flow

/-! ## Switch tables -/

/-- The two forms of switch tables. -/
inductive TableForm where
  /-- The targets stand for consecutive keys. -/
  | packed
  /-- Every target has its own key. -/
  | sparse
  deriving DecidableEq, Repr

namespace TableForm

/-- The form of the table that a line opens. -/
def opened? (text : Bytes) : Option TableForm :=
  if text.startsWith ".packed-switch" then
    some .packed
  else if text.startsWith ".sparse-switch" then
    some .sparse
  else
    none

/-- Whether a line closes a table of the given form. -/
def isClosedBy (form : TableForm) (text : Bytes) : Bool :=
  match form with
  | .packed => text.startsWith ".end packed-switch"
  | .sparse => text.startsWith ".end sparse-switch"

end TableForm

/-- Whether a line belongs to a table, and the table that is open after it. -/
def tableStep (state : Option TableForm) (text : Bytes) :
    Bool × Option TableForm :=
  match state with
  | some form => (true, if form.isClosedBy text then none else some form)
  | none =>
      match TableForm.opened? text with
      | some form => (true, some form)
      | none => (false, none)

/-! ## Rows -/

/-- One line of a method. -/
structure Row where
  /-- The place in the method, counted from zero. -/
  position : Nat
  /-- The index of the line in its class. -/
  id : Nat
  /-- The number of the line in its file. -/
  number : Nat
  text : Bytes
  instruction : Instruction
  /-- Whether the line belongs to a switch table. -/
  inTable : Bool
  deriving DecidableEq, Repr

namespace Row

/-- The kind of the line. -/
def kind (row : Row) : Kind :=
  row.instruction.kind

/-- Whether the line is executed. -/
def isCode (row : Row) : Bool :=
  row.instruction.isCode

/-- The label that the line defines. -/
def definedLabel? (row : Row) : Option Bytes :=
  if row.inTable then
    none
  else
    match row.instruction with
    | .label name => name
    | _ => none

/-- Whether the line defines the given label. -/
def defines (row : Row) (name : Bytes) : Bool :=
  row.definedLabel? == some name

end Row

/-- The rows of a method in order. -/
abbrev Listing := List Row

namespace Listing

/--
Turn lines into rows from `position` on, given the table that is open before
them; earlier rows are kept in reverse.
-/
def extend :
    (lines : List (Nat × Line)) → (state : Option TableForm) →
      (position : Nat) → (rows : List Row) → List Row
  | [], _, _, rows => rows
  | (id, line) :: lines, state, position, rows =>
      let (inTable, state) := tableStep state line.text
      let row : Row :=
        { position, id, number := line.number, text := line.text,
          instruction := line.instruction, inTable }
      extend lines state (position + 1) (row :: rows)

/-- The listing of lines with their indices. -/
def ofLines (lines : List (Nat × Line)) : Listing :=
  (extend lines none 0 []).reverse

/--
The listing of the lines with the given indices; every index has to be in range.
-/
def ofIds? (lines : Array Line) (ids : List Nat) : Option Listing :=
  (ids.mapM fun id => lines[id]?.map fun line => (id, line)).map ofLines

/-- The indices of the lines of a listing. -/
def ids (listing : Listing) : List Nat :=
  listing.map Row.id

/-- The rows outside every table. -/
def body (listing : Listing) : Listing :=
  listing.filter fun row => !row.inTable

/-- The rows after a given one. -/
def after (listing : Listing) (row : Row) : Listing :=
  listing.drop (row.position + 1)

/-- The row that defines a label. -/
def label? (listing : Listing) (name : Bytes) : Option Row :=
  listing.find? fun row => row.defines name

/-- The row that defines a label, or the fault that none does. -/
def resolve (listing : Listing) (name : Bytes) : Except Fault Row :=
  match listing.label? name with
  | some row => .ok row
  | none => .error (.unresolvedLabel name)

end Listing

end SmaliFlow.Flow
