import SmaliFlow.Flow.Group

/-!
# Blocks

A block is a run of rows with the blocks that control may pass to and come
from.  Its marks record which instructions it holds and how exception handlers
concern it.
-/

namespace SmaliFlow.Flow

/-- What is recorded about a block. -/
structure Marks where
  hasReturn : Bool
  hasThrow : Bool
  hasGoto : Bool
  /-- Whether an instruction follows a return. -/
  hasDeadCode : Bool
  /-- Whether a guarded range meets the block. -/
  isGuarded : Bool
  /-- Whether the block holds the label of an exception handler. -/
  isHandler : Bool
  deriving DecidableEq, Repr

namespace Marks

/-- The marks as a bit set, the first mark in the lowest bit. -/
def bits (marks : Marks) : Nat :=
  marks.hasReturn.toNat + 2 * marks.hasThrow.toNat + 4 * marks.hasGoto.toNat +
    8 * marks.hasDeadCode.toNat + 16 * marks.isGuarded.toNat +
    32 * marks.isHandler.toNat

end Marks

/-- A block of a method. -/
structure Block where
  /-- The place among the blocks of the method. -/
  index : Nat
  rows : Group
  /-- The blocks that control may pass to, in the order they were found. -/
  successors : List Nat
  /-- The blocks that control may come from, in the order they were found. -/
  predecessors : List Nat
  marks : Marks
  /--
  The place in the order of discovery from the entry, if the block is reached.
  -/
  discovery : Option Nat := none
  deriving DecidableEq, Repr

namespace Block

/-- The indices of the lines of a block in the class. -/
def lines (block : Block) : List Nat :=
  block.rows.map Row.id

end Block

namespace Group

/-- Whether the group holds an instruction of the given family. -/
def hasFamily (group : Group) (family : Family) : Bool :=
  group.any fun row => row.kind == .code family

/--
Whether an instruction follows a return: there are several returns, or there is
one that is not the last instruction.
-/
def hasDeadCode (group : Group) : Bool :=
  let returns := group.countP fun row => row.kind == .code .returns
  returns > 1 ||
    (returns == 1 && group.lastCode?.map Row.kind != some (.code .returns))

/-- The marks of a group that its own instructions decide. -/
def marks (group : Group) (isGuarded isHandler : Bool) : Marks where
  hasReturn := group.hasFamily .returns
  hasThrow := group.hasFamily .throws
  hasGoto := group.hasFamily .goto
  hasDeadCode := group.hasDeadCode
  isGuarded
  isHandler

end Group

end SmaliFlow.Flow
