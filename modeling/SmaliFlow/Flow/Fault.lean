import SmaliFlow.Text.Utf8

/-!
# Why control flow cannot be rebuilt

The causes for which a method has no block graph, and their texts.
-/

namespace SmaliFlow

namespace Flow

/-- Why the control flow of a method cannot be rebuilt. -/
inductive Fault where
  | unresolvedLabel (name : Bytes)
  /-- A jump on the given line names no label. -/
  | missingTarget (number : Nat)
  /-- A switch on the given line names no table. -/
  | missingTable (number : Nat)
  /-- No table follows the label line with the given text. -/
  | missingPayload (line : Bytes)
  /-- The table after the label line with the given text is never closed. -/
  | openTable (line : Bytes)
  | malformedTarget (number : Nat)
  | reversedRange (number : Nat)
  | outsideBlocks (number : Nat)
  deriving DecidableEq, Repr

namespace Fault

/-- The text of a cause. -/
def message : Fault → String
  | .unresolvedLabel name => "Unresolved label " ++ Utf8.decode name
  | .missingTarget number => s!"Branch without target on line {number}"
  | .missingTable number => s!"Switch without table on line {number}"
  | .missingPayload line =>
      "Switch table " ++ Utf8.decode line ++ " has no payload"
  | .openTable line => "Unterminated switch table " ++ Utf8.decode line
  | .malformedTarget number => s!"Malformed switch entry on line {number}"
  | .reversedRange number =>
      s!"Try range ends before it starts on line {number}"
  | .outsideBlocks number => s!"Line {number} is outside every block"

end Fault

/-- A cause together with the signature of the method it concerns. -/
structure MethodFault where
  fault : Fault
  signature : String
  deriving DecidableEq, Repr

namespace MethodFault

/-- The text of the cause alone. -/
def message (methodFault : MethodFault) : String :=
  methodFault.fault.message

/-- The text of the cause and the method. -/
def display (methodFault : MethodFault) : String :=
  methodFault.fault.message ++ " for method " ++ methodFault.signature

end MethodFault

end Flow

end SmaliFlow
