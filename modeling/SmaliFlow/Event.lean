import SmaliFlow.SourceError

/-!
# Events

What reading classes reports besides its results.  An event has a level and a
text; whoever runs the reader decides what becomes of it.
-/

namespace SmaliFlow

/-- How important an event is. -/
inductive Level where
  | debug
  | info
  | warn
  deriving DecidableEq, Repr

/-- Something that happened while classes were read. -/
inductive Event where
  /-- A method of the file has no control flow. -/
  | noControlFlow (path : String) (methodFault : Flow.MethodFault)
  /-- Some of the `total` blocks of a method are not reached. -/
  | unreachable (missed total : Nat) (signature : String)
  /-- A class has been read. -/
  | classRead (name : String) (lines methods withoutBlocks : Nat)
  /-- A file has been left out. -/
  | fileSkipped (path : String) (error : SourceError)
  /-- A directory has been read. -/
  | directoryLoaded (path : String) (classes skipped : Nat)
  deriving DecidableEq, Repr

namespace Event

/-- The level of an event. -/
def level : Event → Level
  | .noControlFlow _ _ | .fileSkipped _ _ => .warn
  | .unreachable _ _ _ | .classRead _ _ _ _ => .debug
  | .directoryLoaded _ _ _ => .info

/-- The text of an event. -/
def message : Event → String
  | .noControlFlow path methodFault =>
      path ++ ": no control flow for method: " ++ methodFault.display
  | .unreachable missed total signature =>
      s!"{missed} of {total} blocks unreachable in " ++ signature
  | .classRead name lines methods withoutBlocks =>
      "Parsed " ++ name ++
        s!" ({lines} lines, {methods} methods, {withoutBlocks} without blocks)"
  | .fileSkipped path error => "Skipping " ++ path ++ ": " ++ error.message
  | .directoryLoaded path classes skipped =>
      s!"Loaded {classes} classes from " ++ path ++ s!" ({skipped} skipped)"

end Event

end SmaliFlow
