import SmaliFlow.Text.Scan
import SmaliFlow.Text.Utf8

/-!
# Operands

The pieces that instructions and directives are made of: labels, registers,
method references and the guarded ranges of exception handlers.  Each piece has
a scanner that hands back the piece and the rest of the line.
-/

namespace SmaliFlow

/-! ## Labels -/

namespace Label

/-- The octets of a label after its colon. -/
def isNameOctet (octet : UInt8) : Bool :=
  Octet.isAlphanumeric octet || octet == 0x5f || octet == 0x24

/-- A colon and a name that is not empty.  The colon is part of the label. -/
def scan? (input : Bytes) : Option (Bytes × Bytes) := do
  let rest ← Scan.word? ":" input
  let (name, rest) ← Scan.someRun? isNameOctet rest
  return (0x3a :: name, rest)

/-- The label at the beginning of `input`, whatever follows it. -/
def read? (input : Bytes) : Option Bytes :=
  (scan? input).map Prod.fst

end Label

/-! ## Registers -/

namespace Register

/-- The letters that name a local register or a parameter register. -/
def isBank (octet : UInt8) : Bool :=
  octet == 0x76 || octet == 0x70 || octet == 0x56 || octet == 0x50

/-- The letter of a bank and a decimal number. -/
def scan? (input : Bytes) : Option (Bytes × Bytes) :=
  match input with
  | [] => none
  | bank :: rest =>
      if isBank bank then
        (Scan.someRun? Octet.isDigit rest).map fun (digits, rest) =>
          (bank :: digits, rest)
      else
        none

/-- One of the `separators`, with any blanks around it, and a register. -/
def next? (separators : List String) (input : Bytes) :
    Option (Bytes × Bytes) := do
  let rest ← separators.findSome? fun separator =>
    Scan.word? separator (Scan.blanks input)
  scan? (Scan.blanks rest)

theorem length_lt_of_scan?
    {input register rest : Bytes}
    (accepted : scan? input = some (register, rest)) :
    rest.length < input.length := by
  cases input with
  | nil => simp [scan?] at accepted
  | cons bank digits =>
      simp only [scan?] at accepted
      split at accepted
      · obtain ⟨⟨found, remaining⟩, run, equality⟩ :=
          Option.map_eq_some_iff.mp accepted
        cases equality
        cases digits with
        | nil => simp [Scan.someRun?] at run
        | cons digit digits =>
            simp only [Scan.someRun?, Scan.run] at run
            split at run
            · cases run
              have shorter :=
                (List.dropWhile_sublist (l := digit :: digits)
                  Octet.isDigit).length_le
              simp only [List.length_cons] at shorter ⊢
              omega
            · cases run
      · cases accepted

theorem length_lt_of_next?
    {separators : List String}
    {input register rest : Bytes}
    (accepted : next? separators input = some (register, rest)) :
    rest.length < input.length := by
  simp only [next?, Option.bind_eq_bind, Option.bind_eq_some_iff] at accepted
  obtain ⟨afterSeparator, separated, scanned⟩ := accepted
  obtain ⟨separator, -, found⟩ := List.exists_of_findSome?_eq_some separated
  have separatorLength := Scan.length_of_word? found
  have registerLength := length_lt_of_scan? scanned
  have before := Scan.length_blanks_le input
  have after := Scan.length_blanks_le afterSeparator
  omega

/--
Read further registers as long as there are any; those already read are kept in
reverse.
-/
def continueScan
    (separators : List String)
    (input : Bytes)
    (found : List Bytes) :
    List Bytes × Bytes :=
  match _accepted : next? separators input with
  | some (register, rest) => continueScan separators rest (register :: found)
  | none => (found.reverse, input)
termination_by input.length
decreasing_by exact length_lt_of_next? _accepted

/-- A list of registers between separators, possibly empty. -/
def scanList (separators : List String) (input : Bytes) : List Bytes × Bytes :=
  match scan? input with
  | some (register, rest) => continueScan separators rest [register]
  | none => ([], input)

/--
Registers in braces, between commas or as the two ends of a range, with any
blanks around them.
-/
def scanBraced? (input : Bytes) : Option (List Bytes × Bytes) := do
  let rest ← Scan.word? "\x7b" input
  let (registers, rest) := scanList [",", ".."] (Scan.blanks rest)
  let rest ← Scan.word? "\x7d" (Scan.blanks rest)
  return (registers, rest)

/-- The registers at the beginning of the operands of an instruction. -/
def scanOperands (input : Bytes) : List Bytes × Bytes :=
  (scanBraced? input).getD (scanList [","] input)

end Register

/-! ## Method references -/

/-- The method that a call names. -/
structure MethodRef where
  /-- The class in descriptor form. -/
  owner : Bytes
  name : Bytes
  /-- The parameter descriptors, without their parentheses. -/
  parameters : Bytes
  returnType : Bytes
  deriving DecidableEq, Repr

namespace MethodRef

/--
The class, an arrow, the name, the parameters in parentheses and the return
type.
-/
def read? (input : Bytes) : Option MethodRef := do
  let (owner, rest) ← Scan.cut? "->" input
  let (name, rest) ← Scan.cut? "(" rest
  let (parameters, rest) ← Scan.cut? ")" rest
  let (returnType, _) := Scan.run Octet.isVisible rest
  return { owner := owner.trim, name := name.trim, parameters, returnType }

/-- The reference as text. -/
def display (reference : MethodRef) : String :=
  Utf8.decode reference.owner ++ "->" ++ Utf8.decode reference.name ++
    "(" ++ Utf8.decode reference.parameters ++ ")" ++
    Utf8.decode reference.returnType

end MethodRef

/-! ## Exception handlers -/

/--
A range of lines between two labels and the label of the handler that guards it.
-/
structure CatchDirective where
  /-- The caught class; a handler without one catches everything. -/
  exception : Option Bytes
  first : Bytes
  last : Bytes
  handler : Bytes
  deriving DecidableEq, Repr

namespace CatchDirective

/-- The keyword and, unless everything is caught, the caught class. -/
def scanException? (input : Bytes) : Option (Option Bytes × Bytes) :=
  match Scan.wordAnyCase? ".catchall" input with
  | some rest => do
      let rest ← Scan.someBlanks? rest
      return (none, rest)
  | none => do
      let rest ← Scan.wordAnyCase? ".catch" input
      let rest ← Scan.someBlanks? rest
      let (exception, rest) ← Scan.someRun? Octet.isVisible rest
      let rest ← Scan.someBlanks? rest
      return (some exception, rest)

/-- Two labels in braces, with two dots between them. -/
def scanRange? (input : Bytes) : Option ((Bytes × Bytes) × Bytes) := do
  let rest ← Scan.word? "\x7b" input
  let (first, rest) ← Label.scan? (Scan.blanks rest)
  let rest ← Scan.someBlanks? rest
  let rest ← Scan.word? ".." rest
  let rest ← Scan.someBlanks? rest
  let (last, rest) ← Label.scan? rest
  let rest ← Scan.word? "\x7d" (Scan.blanks rest)
  return ((first, last), rest)

/-- A whole directive: what is caught, the guarded range and the handler. -/
def scan? (input : Bytes) : Option (CatchDirective × Bytes) := do
  let (exception, rest) ← scanException? input
  let ((first, last), rest) ← scanRange? rest
  let rest ← Scan.someBlanks? rest
  let (handler, rest) ← Label.scan? rest
  return ({ exception, first, last, handler }, rest)

end CatchDirective

/-! ## Switch tables -/

namespace SwitchTable

/--
The label of one line of a switch table.  In a sparse table a key and an arrow
precede it.
-/
def scanTarget? (line : Bytes) : Option (Bytes × Bytes) :=
  let line := line.trim
  let target :=
    match Scan.cut? "->" line with
    | some (_, target) => target
    | none => line
  Label.scan? (Scan.blanks target)

end SwitchTable

end SmaliFlow
