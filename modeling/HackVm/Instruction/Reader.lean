/-
Reading one line of source.

`readLine` takes the words of a line's code. The first is the opcode, and each
opcode takes a fixed number of operands; their number is checked before their
text, and the operands are checked from left to right, except that an index is
read before its segment is looked up. A single word that is no opcode is not an
error here but a finding of its own (`Reading.unknownOpcode`).

`Instruction.check` makes the same demands of an instruction that comes from
elsewhere.
-/
import HackVm.Instruction.Basic
import HackVm.Instruction.Error
import HackVm.Symbol
import HackVm.Text.Blank
import HackVm.Text.Decimal

namespace HackVm

open Text

/-- The number of cells in the temp segment. -/
def tempSize : UInt16 := 8

/-- What a line of source holds. -/
inductive Reading where
  /-- Nothing but blanks and a comment. -/
  | blank
  | instruction (i : Instruction)
  /-- A single word that is no opcode. -/
  | unknownOpcode (word : String)
  deriving DecidableEq, Repr

/-- A place that words are pushed from and popped into. -/
inductive Place where
  | based (segment : Segment) (index : UInt16)
  | static (index : UInt16)
  | pointer (slot : PointerSlot)
  | temp (index : UInt16)
  deriving DecidableEq, Repr

/-- The instruction that pushes the word at a place. -/
def Place.push : Place → Instruction
  | .based segment i => .pushSegment segment i
  | .static i => .pushStatic i
  | .pointer slot => .pushPointer slot
  | .temp i => .pushTemp i

/-- The instruction that pops into a place. -/
def Place.pop : Place → Instruction
  | .based segment i => .popSegment segment i
  | .static i => .popStatic i
  | .pointer slot => .popPointer slot
  | .temp i => .popTemp i

/-- An unsigned 16-bit operand. -/
def readIndex (operand : String) : Except LineError.Cause UInt16 :=
  match readUInt16 operand.toList with
  | some n => .ok n
  | none => .error (.invalidIndex operand)

/-- A signed 16-bit operand: decimal digits after at most one minus sign. -/
def readConstant (operand : String) : Except LineError.Cause Int16 :=
  let (negative, digits) := match operand.toList with
    | '-' :: rest => (true, rest)
    | text => (false, text)
  match readNat digits with
  | none => .error (.invalidIndex operand)
  | some n =>
    let value : Int := if negative then -n else n
    if -32768 ≤ value ∧ value < 32768 then .ok (Int16.ofInt value)
    else .error (.constantRange operand)

/-- A name that must be a symbol. -/
def readSymbol (operand : String) : Except LineError.Cause String :=
  if isSymbol operand then .ok operand else .error (.invalidSymbol operand)

/-- The place named by a segment word in lower case and an index. -/
def readPlace (segment operand : String) : Except LineError.Cause Place := do
  let i ← readIndex operand
  match segment with
  | "local" => return .based .local i
  | "argument" => return .based .argument i
  | "this" => return .based .this i
  | "that" => return .based .that i
  | "static" => return .static i
  | "temp" => if i < tempSize then return .temp i else throw (.tempIndex i)
  | "pointer" =>
    match PointerSlot.ofIndex? i with
    | some slot => return .pointer slot
    | none => throw (.pointerIndex i)
  | _ => throw (.unknownSegment segment)

/-- The operands of `push`. The segment may be written in either case. -/
def readPush (segment operand : String) : Except LineError.Cause Instruction :=
  if segment.toLower = "constant" then (readConstant operand).map .pushConstant
  else (readPlace segment.toLower operand).map Place.push

/-- The operands of `pop`. The segment may be written in either case. -/
def readPop (segment operand : String) : Except LineError.Cause Instruction :=
  if segment.toLower = "constant" then .error .pushOnlySegment
  else (readPlace segment.toLower operand).map Place.pop

/-- The error of an opcode that has not as many operands as it takes. -/
def LineError.Cause.ofCount (opcode : String) (expected found : Nat) : LineError.Cause :=
  if found < expected then .missingOperand opcode expected found
  else .unexpectedOperand opcode expected found

/-- An instruction that is its opcode alone. -/
def readBare (i : Instruction) (opcode : String) :
    List String → Except LineError.Cause Instruction
  | [] => .ok i
  | operands => .error (.ofCount opcode 0 operands.length)

/-- An instruction that takes one name. -/
def readNamed (make : String → Instruction) (opcode : String) :
    List String → Except LineError.Cause Instruction
  | [name] => (readSymbol name).map make
  | operands => .error (.ofCount opcode 1 operands.length)

/-- An instruction that takes a name and a count. -/
def readCounted (make : String → UInt16 → Instruction) (opcode : String) :
    List String → Except LineError.Cause Instruction
  | [name, count] => do return make (← readSymbol name) (← readIndex count)
  | operands => .error (.ofCount opcode 2 operands.length)

/-- An instruction that takes a segment and a number. -/
def readAccess (read : String → String → Except LineError.Cause Instruction)
    (opcode : String) : List String → Except LineError.Cause Instruction
  | [segment, operand] => read segment operand
  | operands => .error (.ofCount opcode 2 operands.length)

/-- How the operands of an opcode are read, if it is one. -/
def operandReader? (opcode : String) :
    Option (List String → Except LineError.Cause Instruction) :=
  match opcode with
  | "push" => some (readAccess readPush opcode)
  | "pop" => some (readAccess readPop opcode)
  | "add" => some (readBare (.binary .add) opcode)
  | "sub" => some (readBare (.binary .sub) opcode)
  | "and" => some (readBare (.binary .and) opcode)
  | "or" => some (readBare (.binary .or) opcode)
  | "neg" => some (readBare (.unary .neg) opcode)
  | "not" => some (readBare (.unary .not) opcode)
  | "eq" => some (readBare (.compare .eq) opcode)
  | "gt" => some (readBare (.compare .gt) opcode)
  | "lt" => some (readBare (.compare .lt) opcode)
  | "return" => some (readBare .return opcode)
  | "label" => some (readNamed .label opcode)
  | "goto" => some (readNamed .goto opcode)
  | "if-goto" => some (readNamed .ifGoto opcode)
  | "function" => some (readCounted .function opcode)
  | "call" => some (readCounted .call opcode)
  | _ => none

/-- What a line with the given opcode and operands holds. -/
def readWords (opcode : String) (operands : List String) : Except LineError.Cause Reading :=
  match operandReader? opcode with
  | some read => (read operands).map .instruction
  | none => if operands.isEmpty then .ok (.unknownOpcode opcode)
    else .error (.unknownCommand opcode)

/-- What a line of source holds. -/
def readLine (line : String) : Except LineError Reading :=
  let code := strip line.toList
  match (words code).map String.ofList with
  | [] => .ok .blank
  | opcode :: operands =>
    (readWords opcode operands).mapError fun cause => ⟨cause, String.ofList code⟩

/-- Checks that an instruction is one that a line of source can hold. -/
def Instruction.check : Instruction → Except LineError.Cause Unit
  | .pushTemp i | .popTemp i => if i < tempSize then .ok () else .error (.tempIndex i)
  | .label name | .goto name | .ifGoto name | .function name _ | .call name _ =>
    (readSymbol name).map fun _ => ()
  | _ => .ok ()

end HackVm
