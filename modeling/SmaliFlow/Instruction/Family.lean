import SmaliFlow.Text.Bytes

/-!
# Instruction families

Every opcode belongs to one family, which the beginning of its mnemonic
decides, whatever the case of its letters.  Where one beginning extends
another, the longer one is listed first.  Opcodes without a known beginning
are still instructions, of the family `unknown`.
-/

namespace SmaliFlow

/-- The families of executable instructions. -/
inductive Family where
  | nop
  | move
  | moveResult
  | moveException
  | const
  | monitor
  | checkCast
  | instanceOf
  | arrayLength
  | newInstance
  | newArray
  | filledNewArray
  | fillArrayData
  | throws
  | goto
  | switch
  | compare
  /-- The conditional branches. -/
  | branch
  | arrayGet
  | arrayPut
  | fieldGet
  | fieldPut
  | staticGet
  | staticPut
  | invoke
  | invokeStatic
  | returns
  | arithmetic
  | conversion
  | unknown
  deriving DecidableEq, Repr

namespace Family

/-- The beginnings of mnemonics in lower case, with the families they decide. -/
def spellings : List (String × Family) :=
  [("nop", .nop),
    ("move-result", .moveResult),
    ("move-exception", .moveException),
    ("move", .move),
    ("return", .returns),
    ("const", .const),
    ("monitor-", .monitor),
    ("check-cast", .checkCast),
    ("instance-of", .instanceOf),
    ("array-length", .arrayLength),
    ("new-instance", .newInstance),
    ("new-array", .newArray),
    ("filled-new-array", .filledNewArray),
    ("fill-array-data", .fillArrayData),
    ("throw", .throws),
    ("goto", .goto),
    ("packed-switch", .switch),
    ("sparse-switch", .switch),
    ("cmp", .compare),
    ("if-", .branch),
    ("aget", .arrayGet),
    ("aput", .arrayPut),
    ("iget", .fieldGet),
    ("iput", .fieldPut),
    ("sget", .staticGet),
    ("sput", .staticPut),
    ("invoke-static", .invokeStatic),
    ("invoke-", .invoke),
    ("neg-", .arithmetic),
    ("not-", .arithmetic),
    ("add-", .arithmetic),
    ("sub-", .arithmetic),
    ("rsub-", .arithmetic),
    ("mul-", .arithmetic),
    ("div-", .arithmetic),
    ("rem-", .arithmetic),
    ("and-", .arithmetic),
    ("or-", .arithmetic),
    ("xor-", .arithmetic),
    ("shl-", .arithmetic),
    ("shr-", .arithmetic),
    ("ushr-", .arithmetic),
    ("int-to-", .conversion),
    ("long-to-", .conversion),
    ("float-to-", .conversion),
    ("double-to-", .conversion)]

/-- The beginnings of mnemonics as octets. -/
def beginnings : List (Bytes × Family) :=
  spellings.map fun (spelling, family) => (Bytes.ofString spelling, family)

/-- The family of an opcode: that of the first listed beginning it has. -/
def ofOpcode (opcode : Bytes) : Family :=
  let lower := opcode.toLower
  match beginnings.find? fun (beginning, _) => beginning.isPrefixOf lower with
  | some (_, family) => family
  | none => .unknown

/-- Whether control never reaches the line that follows the instruction. -/
def endsFlow : Family → Bool
  | .goto | .returns | .throws => true
  | _ => false

/-- Whether the first register of the instruction receives its result. -/
def writesFirstRegister : Family → Bool
  | .move | .moveResult | .moveException | .const | .checkCast | .instanceOf
  | .arrayLength | .newInstance | .newArray | .compare | .arrayGet
  | .fieldGet | .staticGet | .arithmetic | .conversion => true
  | _ => false

/-- Whether the operand of the instruction is a label. -/
def takesLabel : Family → Bool
  | .branch | .goto | .switch | .fillArrayData => true
  | _ => false

/-- Whether the operand of the instruction is a method reference. -/
def takesMethod : Family → Bool
  | .invoke | .invokeStatic => true
  | _ => false

end Family

end SmaliFlow
