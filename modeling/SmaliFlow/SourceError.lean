import SmaliFlow.Flow.Fault

/-!
# Why a class file is refused

A file is refused if it cannot be read, if it is larger than the settings
allow, or if its structure is broken.  Each cause carries what its text
mentions.
-/

namespace SmaliFlow

/-- Why a path gives no file or no directory. -/
inductive AccessError where
  | notFound
  | notDirectory
  | isDirectory
  /-- A name in the path, or the path as a whole, has too many octets. -/
  | nameTooLong
  /-- The path holds the octet zero, which no name may hold. -/
  | zeroOctet
  deriving DecidableEq, Repr

namespace AccessError

/-- The text of a cause, with its number if it has one. -/
def message : AccessError → String
  | .notFound => "No such file or directory (os error 2)"
  | .notDirectory => "Not a directory (os error 20)"
  | .isDirectory => "Is a directory (os error 21)"
  | .nameTooLong => "File name too long (os error 36)"
  | .zeroOctet => "file name contained an unexpected NUL byte"

end AccessError

/-- Which part of the structure of a class is broken. -/
inductive StructureFault where
  /-- The method that began on line `start` is still open on line `next`. -/
  | nestedMethod (start next : Nat)
  /-- The method that began on line `start` is still open at the end. -/
  | openMethod (start : Nat)
  | missingClass
  /-- The control flow of a method. -/
  | flow (methodFault : Flow.MethodFault)
  deriving DecidableEq, Repr

namespace StructureFault

/-- The text of a cause. -/
def message : StructureFault → String
  | .nestedMethod start next =>
      s!"Method starting at line {start} is not closed before line {next}"
  | .openMethod start => s!"Method starting at line {start} has no .end method"
  | .missingClass => "Missing .class directive"
  | .flow methodFault => methodFault.display

end StructureFault

/-- Why a class file is refused. -/
inductive SourceError where
  | unreadable (path : String) (cause : AccessError)
  | fileTooLarge (path : String) (limit : Nat)
  | lineTooLong (path : String) (number limit : Nat)
  | malformed (fault : StructureFault)
  deriving DecidableEq, Repr

namespace SourceError

/-- The text of a cause. -/
def message : SourceError → String
  | .unreadable path cause =>
      "Error loading file " ++ path ++ ": " ++ cause.message
  | .fileTooLarge path limit =>
      "File " ++ path ++ s!" exceeds the maximum size of {limit} bytes"
  | .lineTooLong path number limit =>
      s!"Line {number} of " ++ path ++
        s!" exceeds the maximum length of {limit} bytes"
  | .malformed fault => "Class parse error: " ++ fault.message

/-- The text of the error behind a cause, if there is one. -/
def source? : SourceError → Option String
  | .unreadable _ cause => some cause.message
  | .malformed fault => some fault.message
  | .fileTooLarge _ _ | .lineTooLong _ _ _ => none

end SourceError

end SmaliFlow
