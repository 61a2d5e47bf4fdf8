/-
What can be wrong with a line of source.

A `LineError` is a cause together with the code of the line, which is the line
without its comment and the blanks around it. `LineError.message` is its one
sentence.
-/

namespace HackVm

/-- What is wrong with a line. -/
inductive LineError.Cause where
  /-- The opcode takes more operands than the line has. -/
  | missingOperand (opcode : String) (expected found : Nat)
  /-- The opcode takes fewer operands than the line has. -/
  | unexpectedOperand (opcode : String) (expected found : Nat)
  /-- An operand that should be a number is none, or an index is too large. -/
  | invalidIndex (operand : String)
  | unknownSegment (segment : String)
  /-- A constant cannot be popped into. -/
  | pushOnlySegment
  | pointerIndex (index : UInt16)
  | tempIndex (index : UInt16)
  /-- A number that is no signed 16-bit number. -/
  | constantRange (operand : String)
  | invalidSymbol (name : String)
  /-- An opcode that is not known, with operands. -/
  | unknownCommand (opcode : String)
  deriving DecidableEq, Repr

/-- A cause in words. -/
def LineError.Cause.message : LineError.Cause → String
  | .missingOperand opcode expected found | .unexpectedOperand opcode expected found =>
    s!"'{opcode}' expects {expected} operand(s), found {found}"
  | .invalidIndex operand => s!"'{operand}' is not a non-negative integer"
  | .unknownSegment segment => s!"unknown segment '{segment}'"
  | .pushOnlySegment => "cannot pop into the constant segment"
  | .pointerIndex index => s!"pointer index must be 0 or 1, found {index}"
  | .tempIndex index => s!"temp index must be in 0..=7, found {index}"
  | .constantRange operand => s!"constant '{operand}' does not fit in 16 bits"
  | .invalidSymbol name => s!"'{name}' is not a valid symbol"
  | .unknownCommand opcode => s!"unknown command '{opcode}'"

/-- A line that is no instruction: the cause and the code of the line. -/
structure LineError where
  cause : LineError.Cause
  text : String
  deriving DecidableEq, Repr

/-- A line error in words. -/
def LineError.message (e : LineError) : String :=
  s!"{e.cause.message} in `{e.text}`"

end HackVm
