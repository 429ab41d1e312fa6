import SmaliFlow.Line
import SmaliFlow.SourceError

/-!
# Outline of a class file

The lines of a class are divided between its methods and everything else.  A
method runs from its header to the line that ends it; the directives inside of
it that only give line numbers of the program text belong to nobody.  Lines
whose surroundings have decided what they are never open or close a method.
-/

namespace SmaliFlow

namespace Line

/-- Whether the line opens a method. -/
def opensMethod (line : Line) : Bool :=
  !line.isGiven && line.text.startsWith ".method"

/-- Whether the line closes a method. -/
def closesMethod (line : Line) : Bool :=
  !line.isGiven && line.text.startsWith ".end method"

/-- Whether the line gives a line number of the program text. -/
def isLineDirective (line : Line) : Bool :=
  !line.isGiven && line.text.startsWith ".line"

end Line

/-- A line together with its index in the class. -/
abbrev IndexedLine := Nat × Line

/-- The lines of a class, divided. -/
structure Outline where
  methods : List (List IndexedLine)
  /-- The lines outside every method. -/
  others : List IndexedLine
  deriving DecidableEq, Repr

/-- A method whose end has not been seen. -/
structure OpenMethod where
  /-- The number of its header. -/
  start : Nat
  /-- Its lines in reverse. -/
  lines : List IndexedLine
  deriving DecidableEq, Repr

namespace Outline

/--
Divide the remaining lines, of which the first has the given index.  Finished
methods and other lines are kept in reverse.
-/
def divide :
    (lines : List Line) → (index : Nat) → (current : Option OpenMethod) →
      (methods : List (List IndexedLine)) → (others : List IndexedLine) →
      Except StructureFault Outline
  | [], _, none, methods, others =>
      .ok { methods := methods.reverse, others := others.reverse }
  | [], _, some current, _, _ => .error (.openMethod current.start)
  | line :: lines, index, none, methods, others =>
      if line.opensMethod then
        divide lines (index + 1)
          (some { start := line.number, lines := [(index, line)] })
            methods others
      else
        divide lines (index + 1) none methods ((index, line) :: others)
  | line :: lines, index, some current, methods, others =>
      if line.opensMethod then
        .error (.nestedMethod current.start line.number)
      else if line.isLineDirective then
        divide lines (index + 1) (some current) methods others
      else if line.closesMethod then
        divide lines (index + 1) none
          (((index, line) :: current.lines).reverse :: methods) others
      else
        divide lines (index + 1)
          (some { current with lines := (index, line) :: current.lines })
            methods others

/-- The lines outside every method as the given lines have them. -/
def othersIn (outline : Outline) (lines : Array Line) : List IndexedLine :=
  outline.others.filterMap fun entry => lines[entry.1]?.map fun line =>
    (entry.1, line)

/-- Divide the lines of a class. -/
def ofLines (lines : Array Line) : Except StructureFault Outline :=
  divide lines.toList 0 none [] []

end Outline

end SmaliFlow
