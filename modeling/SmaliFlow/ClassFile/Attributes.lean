import SmaliFlow.ClassFile.Name
import SmaliFlow.ClassFile.Outline
import SmaliFlow.Field

/-!
# Attributes of a class

Everything that the lines outside of methods declare: the class itself, what it
extends and implements, the file it was compiled from and its fields.  A later
declaration replaces an earlier one; interfaces and fields accumulate.
-/

namespace SmaliFlow

/-- What the lines outside of methods declare. -/
structure Attributes where
  modifiers : List Modifier := []
  descriptor : Option Bytes := none
  superClass : Option String := none
  interfaces : Array String := #[]
  sourceFile : Option String := none
  fields : Array Field := #[]
  deriving DecidableEq, Repr

namespace Attributes

/-- The flags and the descriptor of a class declaration. -/
def scanClass? (text : Bytes) : Option (List Modifier × Bytes) := do
  let rest ← Scan.word? ".class" text
  let (modifiers, rest) := Modifier.scan rest
  return (modifiers, rest.trim)

/-- The name after a keyword and one space. -/
def scanName? (keyword : String) (text : Bytes) : Option Bytes := do
  let rest ← Scan.word? keyword text
  let rest ← Scan.word? " " rest
  return rest.trim

/-- The name of the source file between quotation marks. -/
def scanSource? (text : Bytes) : Option Bytes := do
  let rest ← Scan.word? ".source" text
  let rest ← Scan.word? "\"" (Scan.blanks rest)
  let (name, _) ← Scan.cut? "\"" rest
  return name

/-- Take in a line that declares no field. -/
def addDeclaration (attributes : Attributes) (text : Bytes) : Attributes :=
  match scanClass? text with
  | some (modifiers, descriptor) =>
      { attributes with modifiers, descriptor := some descriptor }
  | none =>
      match scanName? ".super" text with
      | some name =>
          { attributes with superClass := some (ClassName.dotted name) }
      | none =>
          match scanName? ".implements" text with
          | some name =>
              { attributes with
                interfaces :=
                  attributes.interfaces.push (ClassName.dotted name) }
          | none =>
              match scanSource? text with
              | some name =>
                  { attributes with sourceFile := some (Utf8.decode name) }
              | none => attributes

/-- Take in a line, unless it is already known what it is. -/
def add (attributes : Attributes) (line : Line) : Attributes :=
  if line.knownKind?.isSome then
    attributes
  else if line.text.startsWith ".field" then
    match Field.read? line.text line.number with
    | some field => { attributes with fields := attributes.fields.push field }
    | none => attributes
  else
    attributes.addDeclaration line.text

/-- What the given lines declare. -/
def ofLines (lines : List IndexedLine) : Attributes :=
  lines.foldl (fun attributes (_, line) => attributes.add line) {}

end Attributes

end SmaliFlow
