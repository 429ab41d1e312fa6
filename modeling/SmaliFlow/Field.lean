import SmaliFlow.Modifier
import SmaliFlow.Text.Utf8

/-!
# Field declarations

A field declaration names its flags, its name, its type descriptor and,
optionally, an initial value after an equals sign.
-/

namespace SmaliFlow

/-- A declared field. -/
structure Field where
  name : String
  modifiers : List Modifier
  /-- The type descriptor. -/
  descriptor : String
  /-- The text after the equals sign, without the padding around it. -/
  initialValue : Option String
  /-- The number of the declaring line, counted from one. -/
  number : Nat
  deriving DecidableEq, Repr

namespace Field

/-- The octets of a field name. -/
def isNameOctet (octet : UInt8) : Bool :=
  Octet.isVisible octet && octet != 0x3a

/-- The octets of a type descriptor. -/
def isTypeOctet (octet : UInt8) : Bool :=
  Octet.isVisible octet && octet != 0x3d

/-- Everything after an equals sign, if there is one. -/
def initialValue? (input : Bytes) : Option Bytes :=
  (Scan.word? "=" (Scan.blanks input)).map Bytes.trim

/-- Read a declaration; any other line declares no field. -/
def read? (line : Bytes) (number : Nat) : Option Field := do
  let rest ← Scan.word? ".field" line.trim
  let (modifiers, rest) := Modifier.scan rest
  let (name, rest) ← Scan.someRun? isNameOctet (Scan.blanks rest)
  let rest ← Scan.word? ":" rest
  let (descriptor, rest) ← Scan.someRun? isTypeOctet rest
  return {
    name := Utf8.decode name
    modifiers
    descriptor := Utf8.decode descriptor
    initialValue := (initialValue? rest).map Utf8.decode
    number }

/-- Whether the field belongs to the class itself. -/
def isStatic (field : Field) : Bool :=
  field.modifiers.contains .static

/-- Whether the field is never reassigned. -/
def isFinal (field : Field) : Bool :=
  field.modifiers.contains .final

end Field

end SmaliFlow
