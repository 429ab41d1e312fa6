import SmaliFlow.Text.Bytes

/-!
# Lines of an octet string

A line ends at a line feed, at a carriage return, or at a carriage return
directly followed by a line feed.  A terminator at the very end of the text
does not open a further, empty line.
-/

namespace SmaliFlow.Lines

/--
Cut `bytes` into lines.  The octets of the line being read are kept in reverse
in `current`, the finished lines in reverse in `finished`.
-/
def cut : (bytes current : Bytes) → (finished : List Bytes) → List Bytes
  | [], [], finished => finished
  | [], current, finished => current.reverse :: finished
  | 0x0a :: rest, current, finished =>
      cut rest [] (current.reverse :: finished)
  | 0x0d :: 0x0a :: rest, current, finished =>
      cut rest [] (current.reverse :: finished)
  | 0x0d :: rest, current, finished =>
      cut rest [] (current.reverse :: finished)
  | octet :: rest, current, finished =>
      cut rest (octet :: current) finished

/-- The lines of a text in order, without their terminators. -/
def split (bytes : Bytes) : List Bytes :=
  (cut bytes [] []).reverse

end SmaliFlow.Lines
