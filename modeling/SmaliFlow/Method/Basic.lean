import SmaliFlow.Event
import SmaliFlow.Flow.Discovery
import SmaliFlow.Flow.Graph
import SmaliFlow.Method.Header

/-!
# Methods

A method is declared from its listing: the first line is its header, and the
instructions are counted.  Its control flow is built in a second step, which
either gives blocks or keeps the fault; a third step numbers the blocks that the
entry reaches.  Building again forgets everything that an earlier build left.
-/

namespace SmaliFlow

/-- A method and, once built, its control flow. -/
structure Method where
  /-- The index of the method in its class. -/
  label : Nat
  header : Header
  /-- The declared number of registers. -/
  locals : Option Nat
  /-- The indices of its lines in the class. -/
  lines : List Nat
  /-- How many of its lines are executed. -/
  codeCount : Nat
  /-- How many of its lines compute with numbers. -/
  arithmeticCount : Nat
  blocks : List Flow.Block := []
  ranges : List Flow.GuardedRange := []
  /-- Whether the entry does not reach all blocks, as of the last numbering. -/
  hasUnlinkedBlocks : Bool := false
  fault : Option Flow.MethodFault := none
  deriving DecidableEq, Repr

namespace Method

/-! ## Declaration -/

/--
Continue a decimal number that has the given value so far, below two to the
power of 32.
-/
def readDigits? : (digits : Bytes) → (value : Nat) → Option Nat
  | [], value => some value
  | octet :: digits, value =>
      let next := value * 10 + (octet.toNat - 0x30)
      if Octet.isDigit octet && next < 2 ^ 32 then
        readDigits? digits next else none

/--
A decimal number below two to the power of 32, with or without a plus sign.
-/
def readCount? (word : Bytes) : Option Nat :=
  let digits :=
    match word with
    | 0x2b :: digits => digits
    | digits => digits
  if digits.isEmpty then none else readDigits? digits 0

/-- Everything after the last space. -/
def lastWord (text : Bytes) : Bytes :=
  (text.reverse.takeWhile (· != 0x20)).reverse

/-- The register count that a row declares. -/
def declaredCount? (row : Flow.Row) : Option Nat :=
  if !row.isCode &&
    (row.text.startsWith ".locals" || row.text.startsWith ".registers") then
    readCount? (lastWord row.text)
  else
    none

/-- Declare the method that a listing describes. -/
def declare (label : Nat) (listing : Flow.Listing) : Method where
  label
  header := Header.read ((listing.head?.map Flow.Row.text).getD [])
  locals := listing.findSome? declaredCount?
  lines := listing.ids
  codeCount := listing.countP Flow.Row.isCode
  arithmeticCount := listing.countP fun row => row.kind == .code .arithmetic

/--
Declare the method with the given lines of a class; every index has to be in
range.
-/
def declare? (label : Nat) (lines : Array Line) (ids : List Nat) :
    Option Method :=
  (Flow.Listing.ofIds? lines ids).map (declare label)

/-! ## Control flow -/

/-- The method without any control flow. -/
def clear (method : Method) : Method :=
  { method with
    blocks := [], ranges := [], hasUnlinkedBlocks := false, fault := none }

/-- Build the control flow from a listing of the lines of the method. -/
def build (method : Method) (listing : Flow.Listing) : Method :=
  match Flow.Graph.build listing with
  | .ok graph =>
      { method.clear with blocks := graph.blocks, ranges := graph.ranges }
  | .error fault =>
      { method.clear with
        fault := some { fault, signature := method.header.signature } }

/--
Build the control flow from the lines of a class; every index has to be in
range.
-/
def build? (method : Method) (lines : Array Line) : Option Method :=
  (Flow.Listing.ofIds? lines method.lines).map method.build

/-- The numbers of the blocks and how many of them have one. -/
def discovery (method : Method) : Array (Option Nat) × Nat :=
  Flow.Discovery.number (method.blocks.map Flow.Block.successors).toArray

/-- Number the blocks that the entry reaches. -/
def discover (method : Method) : Method :=
  let (numbers, reached) := method.discovery
  { method with
    blocks := method.blocks.zipWith (fun block number =>
      { block with discovery := number })
      numbers.toList
    hasUnlinkedBlocks := reached < method.blocks.length }

/-- How many blocks the entry reaches. -/
def reachedCount (method : Method) : Nat :=
  method.discovery.2

/-- What numbering the blocks reports: blocks that are not reached. -/
def discoveryEvents (method : Method) : List Event :=
  let total := method.blocks.length
  let reached := method.reachedCount
  if reached < total then
    [.unreachable (total - reached) total method.header.signature]
  else
    []

/-! ## Questions about a method -/

/-- Whether the method has no blocks. -/
def isEmpty (method : Method) : Bool :=
  method.blocks.isEmpty

/-- The share of instructions that compute with numbers. -/
def arithmeticRatio (method : Method) : Float :=
  if method.codeCount = 0 then
    0
  else
    Float.ofNat method.arithmeticCount / Float.ofNat method.codeCount

/-- Whether blocks are not reached or a return is followed by more code. -/
def isProbablyPatched (method : Method) : Bool :=
  method.hasUnlinkedBlocks || method.blocks.any fun block =>
    block.marks.hasDeadCode

end Method

end SmaliFlow
