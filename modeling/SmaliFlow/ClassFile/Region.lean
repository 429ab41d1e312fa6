import SmaliFlow.Line
import SmaliFlow.Settings
import SmaliFlow.SourceError
import SmaliFlow.Text.Lines

/-!
# Regions of a class file

Lines inside metadata brackets, array contents and switch tables are never
instructions.  The region of each line follows from the lines above it; the line
that opens a region is still outside of it, the line that closes it is inside.

Metadata brackets nest.  Inside of one, a nested bracket may also stand in the
middle of a line, as the value of an element.
-/

namespace SmaliFlow

/-- What kind of body a line stands in. -/
inductive Region where
  | body
  /-- Inside the given number of metadata brackets. -/
  | metadata (depth : Nat)
  | arrayData
  | switchTable
  deriving DecidableEq, Repr

namespace Region

/-- Whether a line closes a metadata bracket. -/
def closesMetadata (text : Bytes) : Bool :=
  text.startsWith ".end annotation" || text.startsWith ".end subannotation"

/-- Whether a line inside a metadata bracket opens a further one. -/
def nestsMetadata (text : Bytes) : Bool :=
  text.startsWith ".annotation" ||
    Search.contains text (Bytes.ofString ".subannotation")

/-- The region that a line outside every region opens. -/
def opened (text : Bytes) : Region :=
  if text.startsWith ".annotation" || text.startsWith ".subannotation" then
    .metadata 1
  else if text.startsWith ".array-data" then
    .arrayData
  else if text.startsWith ".packed-switch" ||
    text.startsWith ".sparse-switch" then
    .switchTable
  else
    .body

/-- The region inside the given number of metadata brackets. -/
def ofDepth (depth : Nat) : Region :=
  if depth = 0 then .body else .metadata depth

/-- The region of the next line. -/
def next (region : Region) (text : Bytes) : Region :=
  match region with
  | .body => opened text
  | .metadata depth =>
      if closesMetadata text then
        ofDepth (depth - 1)
      else if nestsMetadata text then
        ofDepth (depth + 1)
      else
        ofDepth depth
  | .arrayData =>
      if text.startsWith ".end array-data" then .body else .arrayData
  | .switchTable =>
      if text.startsWith ".end packed-switch" ||
        text.startsWith ".end sparse-switch" then
        .body
      else
        .switchTable

/--
What the lines of a region are; outside every region their own text decides.
-/
def reading : Region → Reading
  | .body => .pending
  | .metadata _ => .given .metadata
  | .arrayData | .switchTable => .given .data

end Region

namespace Line

/--
Read the remaining lines of a file.  `number` is the number of the first of
them and `size` the number of octets in the lines above, without terminators.
-/
def readFrom (settings : Settings) (path : String) :
    (rawLines : List Bytes) → (number size : Nat) → (region : Region) →
      (lines : Array Line) → Except SourceError (Array Line)
  | [], _, _, _, lines => .ok lines
  | raw :: rawLines, number, size, region, lines =>
      if settings.maxLineLength < raw.length then
        .error (.lineTooLong path number settings.maxLineLength)
      else if settings.maxFileSize < size + raw.length then
        .error (.fileTooLarge path settings.maxFileSize)
      else
        let text := raw.trim
        let line : Line := { text, number, reading := region.reading }
        readFrom settings path rawLines (number + 1) (size + raw.length)
          (region.next text) (lines.push line)

/-- The lines of a file, as long as they obey the limits. -/
def readAll (settings : Settings) (path : String) (source : Bytes) :
    Except SourceError (Array Line) :=
  readFrom settings path (Lines.split source) 1 0 .body #[]

end Line

end SmaliFlow
