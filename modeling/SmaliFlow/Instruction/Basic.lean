import SmaliFlow.Instruction.Family
import SmaliFlow.Instruction.Operand

/-!
# Classified lines

What one line of a disassembled class is: an executable instruction with its
operands, or one of the things that stand between instructions.  Reading a line
never fails, since an opcode that is not known is still an instruction.
-/

namespace SmaliFlow

/-- The kind of a line, without what it carries. -/
inductive Kind where
  | code (family : Family)
  | blank
  | comment
  | label
  /-- A directive without a kind of its own. -/
  | directive
  /-- A directive that guards a range of lines by an exception handler. -/
  | guard
  /-- The brackets of metadata and everything between them. -/
  | metadata
  /-- The lines of switch tables and of array contents. -/
  | data
  deriving DecidableEq, Repr

namespace Kind

/-- Whether lines of this kind are executed. -/
def isCode : Kind → Bool
  | .code _ => true
  | _ => false

/-- Whether control never reaches the line that follows. -/
def endsFlow : Kind → Bool
  | .code family => family.endsFlow
  | _ => false

end Kind

/--
What follows the registers of an instruction, as far as it matters for control
flow.
-/
inductive Operand where
  | other
  | label (name : Bytes)
  | method (callee : MethodRef)
  deriving DecidableEq, Repr

/-- An executable instruction. -/
structure Operation where
  family : Family
  opcode : Bytes
  /-- The registers as written; a range contributes its two ends. -/
  registers : List Bytes
  operand : Operand
  deriving DecidableEq, Repr

/-- What a line is and what it carries. -/
inductive Instruction where
  | code (operation : Operation)
  | blank
  | comment
  /-- A label line; a colon that no name follows gives none. -/
  | label (name : Option Bytes)
  | directive
  | guard (range : CatchDirective)
  | metadata
  | data
  deriving DecidableEq, Repr

namespace Operation

/-- The octets of an opcode. -/
def isOpcodeOctet (octet : UInt8) : Bool :=
  Octet.isAlphanumeric octet || octet == 0x2d || octet == 0x2f || octet == 0x5f

/-- Drop the comma that separates the registers from the last operand. -/
def afterComma (input : Bytes) : Bytes :=
  match Scan.word? "," (Scan.blanks input) with
  | some rest => rest
  | none => input

/-- The last operand of an instruction of the given family. -/
def readOperand (family : Family) (input : Bytes) : Operand :=
  if family.takesLabel then
    match Label.read? input with
    | some name => .label name
    | none => .other
  else if family.takesMethod then
    match MethodRef.read? input with
    | some callee => .method callee
    | none => .other
  else
    .other

/-- The opcode, the registers and the last operand of a trimmed line. -/
def read (line : Bytes) : Operation :=
  let (opcode, rest) := Scan.run isOpcodeOctet line
  let family := Family.ofOpcode opcode
  let (registers, rest) := Register.scanOperands rest.trim
  { family, opcode, registers,
    operand := readOperand family (afterComma rest).trim }

end Operation

namespace Instruction

/-- Whether a directive opens or closes a metadata bracket. -/
def isMetadataBracket (line : Bytes) : Bool :=
  line.startsWith ".annotation" || line.startsWith ".subannotation" ||
    line.startsWith ".end annotation" || line.startsWith ".end subannotation"

/-- Classify a line that begins with a dot. -/
def readDirective (line : Bytes) : Instruction :=
  match CatchDirective.scan? line with
  | some (range, _) => .guard range
  | none => if isMetadataBracket line then .metadata else .directive

/-- Classify a line by its first visible octet. -/
def read (line : Bytes) : Instruction :=
  match line.trim with
  | [] => .blank
  | 0x23 :: _ => .comment
  | 0x3a :: name => .label (Label.read? (0x3a :: name))
  | 0x2e :: rest => readDirective (0x2e :: rest)
  | octet :: rest => .code (Operation.read (octet :: rest))

/-- The kind of a classified line. -/
def kind : Instruction → Kind
  | .code operation => .code operation.family
  | .blank => .blank
  | .comment => .comment
  | .label _ => .label
  | .directive => .directive
  | .guard _ => .guard
  | .metadata => .metadata
  | .data => .data

/-- Whether the line is executed. -/
def isCode (instruction : Instruction) : Bool :=
  instruction.kind.isCode

/-- Whether control never reaches the line that follows. -/
def endsFlow (instruction : Instruction) : Bool :=
  instruction.kind.endsFlow

/-- The opcode as written; only instructions have one. -/
def opcode : Instruction → Bytes
  | .code operation => operation.opcode
  | _ => []

/-- The registers of an instruction in the order they are written. -/
def registers : Instruction → List Bytes
  | .code operation => operation.registers
  | _ => []

/-- The register that receives the result. -/
def result? : Instruction → Option Bytes
  | .code operation =>
      if operation.family.writesFirstRegister then
        operation.registers.head?
      else
        none
  | _ => none

/--
The label that an instruction refers to, or the one that a label line names.
-/
def label? : Instruction → Option Bytes
  | .code operation =>
      match operation.operand with
      | .label name => some name
      | _ => none
  | .label name => name
  | _ => none

/-- The method that a call names. -/
def callee? : Instruction → Option MethodRef
  | .code operation =>
      match operation.operand with
      | .method callee => some callee
      | _ => none
  | _ => none

/-- The guarded range that a directive describes. -/
def guard? : Instruction → Option CatchDirective
  | .guard range => some range
  | _ => none

end Instruction

end SmaliFlow
