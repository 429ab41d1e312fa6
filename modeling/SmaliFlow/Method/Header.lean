import SmaliFlow.Modifier
import SmaliFlow.Text.Utf8

/-!
# Method headers

The first line of a method: its flags, its name, its parameters in parentheses
and its return type.  A header that cannot be read in this way still gives a
name, which is everything after the directive.
-/

namespace SmaliFlow

/-- What the name of a method says about it. -/
inductive MethodKind where
  | constructor
  | staticInitializer
  | normal
  deriving DecidableEq, Repr

/-- The declaration of a method. -/
structure Header where
  modifiers : List Modifier
  name : String
  /-- The parameter descriptors, without their parentheses. -/
  parameters : Bytes
  returnType : Bytes
  deriving DecidableEq, Repr

namespace Header

/-- Read a complete header. -/
def scan? (line : Bytes) : Option Header := do
  let rest ← Scan.word? ".method" line
  let (modifiers, rest) := Modifier.scan rest
  let (name, rest) ← Scan.cut? "(" (Scan.blanks rest)
  let (parameters, rest) ← Scan.cut? ")" rest
  let (returnType, _) := Scan.run Octet.isVisible rest
  return { modifiers, name := Utf8.decode name.trim, parameters, returnType }

/-- Read a header, complete or not. -/
def read (line : Bytes) : Header :=
  match scan? line with
  | some header => header
  | none =>
      let name := (Scan.word? ".method" line).getD line
      { modifiers := [], name := Utf8.decode name.trim, parameters := [],
        returnType := [] }

/-- The name, the parameters in parentheses and the return type. -/
def signature (header : Header) : String :=
  header.name ++ "(" ++ Utf8.decode header.parameters ++ ")" ++
    Utf8.decode header.returnType

/-- Constructors and static initializers have names of their own. -/
def kind (header : Header) : MethodKind :=
  if header.name = "<init>" then
    .constructor
  else if header.name = "<clinit>" then
    .staticInitializer
  else
    .normal

/-- Whether the method belongs to the class itself. -/
def isStatic (header : Header) : Bool :=
  header.modifiers.contains .static

end Header

end SmaliFlow
