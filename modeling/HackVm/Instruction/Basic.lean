/-
The instructions of the stack machine.

An instruction works on a stack of 16-bit words: it moves words between the
stack and the memory segments, computes on the topmost words, jumps, or enters
and leaves a function. `Instruction.opcode` is the word that an instruction
starts with and `Instruction.text` the one line of source it is written as.
-/

namespace HackVm

/-- A segment reached through a base address that a memory cell holds. -/
inductive Segment where
  | local
  | argument
  | this
  | that
  deriving DecidableEq, Repr

/-- The word for a segment in a source line. -/
def Segment.keyword : Segment → String
  | .local => "local"
  | .argument => "argument"
  | .this => "this"
  | .that => "that"

/-- The name of the cell that holds a segment's base address. -/
def Segment.baseSymbol : Segment → String
  | .local => "LCL"
  | .argument => "ARG"
  | .this => "THIS"
  | .that => "THAT"

/-- A cell of the pointer segment: the base address of `this` or that of `that`. -/
inductive PointerSlot where
  | this
  | that
  deriving DecidableEq, Repr

/-- The pointer cell of an index. -/
def PointerSlot.ofIndex? (index : UInt16) : Option PointerSlot :=
  if index = 0 then some .this else if index = 1 then some .that else none

/-- The index of a pointer cell. -/
def PointerSlot.index : PointerSlot → UInt16
  | .this => 0
  | .that => 1

/-- The name of a pointer cell, which is the base of the segment it points at. -/
def PointerSlot.symbol : PointerSlot → String
  | .this => Segment.this.baseSymbol
  | .that => Segment.that.baseSymbol

/-- An operation on the two topmost words. -/
inductive BinaryOp where
  | add
  | sub
  | and
  | or
  deriving DecidableEq, Repr

/-- The opcode of a binary operation. -/
def BinaryOp.keyword : BinaryOp → String
  | .add => "add"
  | .sub => "sub"
  | .and => "and"
  | .or => "or"

/-- The operator that stands for a binary operation in assembly. -/
def BinaryOp.symbol : BinaryOp → Char
  | .add => '+'
  | .sub => '-'
  | .and => '&'
  | .or => '|'

/-- An operation on the topmost word. -/
inductive UnaryOp where
  | neg
  | not
  deriving DecidableEq, Repr

/-- The opcode of a unary operation. -/
def UnaryOp.keyword : UnaryOp → String
  | .neg => "neg"
  | .not => "not"

/-- The operator that stands for a unary operation in assembly. -/
def UnaryOp.symbol : UnaryOp → Char
  | .neg => '-'
  | .not => '!'

/-- A comparison of the two topmost words, read as signed numbers. -/
inductive CompareOp where
  | eq
  | gt
  | lt
  deriving DecidableEq, Repr

/-- The opcode of a comparison. -/
def CompareOp.keyword : CompareOp → String
  | .eq => "eq"
  | .gt => "gt"
  | .lt => "lt"

/-- One instruction. Its names and indices may be such as no source line gives. -/
inductive Instruction where
  /-- Push a number. -/
  | pushConstant (value : Int16)
  /-- Push the word at an index of a segment. -/
  | pushSegment (segment : Segment) (index : UInt16)
  /-- Pop into the word at an index of a segment. -/
  | popSegment (segment : Segment) (index : UInt16)
  | pushStatic (index : UInt16)
  | popStatic (index : UInt16)
  | pushPointer (slot : PointerSlot)
  | popPointer (slot : PointerSlot)
  | pushTemp (index : UInt16)
  | popTemp (index : UInt16)
  /-- Replace the two topmost words by the result of an operation on them. -/
  | binary (op : BinaryOp)
  /-- Replace the topmost word by the result of an operation on it. -/
  | unary (op : UnaryOp)
  /-- Replace the two topmost words by `-1` if they compare as asked and by `0` if not. -/
  | compare (op : CompareOp)
  /-- Mark a place in the enclosing function. -/
  | label (name : String)
  | goto (name : String)
  /-- Pop the topmost word and jump if it is not zero. -/
  | ifGoto (name : String)
  /-- Begin a function with the given number of local words, each zero at first. -/
  | function (name : String) (locals : UInt16)
  /-- Call a function on the given number of topmost words. -/
  | call (name : String) (args : UInt16)
  /-- Leave a function with the topmost word as its result. -/
  | return
  deriving DecidableEq, Repr

/-- The word that an instruction starts with. -/
def Instruction.opcode : Instruction → String
  | .pushConstant _ | .pushSegment .. | .pushStatic _ | .pushPointer _ | .pushTemp _ => "push"
  | .popSegment .. | .popStatic _ | .popPointer _ | .popTemp _ => "pop"
  | .binary op => op.keyword
  | .unary op => op.keyword
  | .compare op => op.keyword
  | .label _ => "label"
  | .goto _ => "goto"
  | .ifGoto _ => "if-goto"
  | .function .. => "function"
  | .call .. => "call"
  | .return => "return"

/-- The words that follow the opcode. -/
def Instruction.operands : Instruction → List String
  | .pushConstant n => ["constant", toString n.toInt]
  | .pushSegment segment i | .popSegment segment i => [segment.keyword, toString i.toNat]
  | .pushStatic i | .popStatic i => ["static", toString i.toNat]
  | .pushPointer slot | .popPointer slot => ["pointer", toString slot.index.toNat]
  | .pushTemp i | .popTemp i => ["temp", toString i.toNat]
  | .binary _ | .unary _ | .compare _ | .return => []
  | .label name | .goto name | .ifGoto name => [name]
  | .function name n | .call name n => [name, toString n.toNat]

/-- An instruction as one line of source: its opcode and operands with a space between two. -/
def Instruction.text (i : Instruction) : String :=
  " ".intercalate (i.opcode :: i.operands)

end HackVm
