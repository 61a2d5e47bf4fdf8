/-
The assembly for each instruction.

Memory is laid out as follows.

| cells | use |
|---|---|
| 0 | `SP`, the address of the first free word above the stack |
| 1 to 4 | `LCL`, `ARG`, `THIS`, `THAT`, the bases of the segments |
| 5 to 12 | the temp segment |
| 13 to 15 | scratch, of no meaning between two instructions |
| from 16 | static words, and above them the stack |

A push stores through `SP` and then raises it; a pop lowers `SP` and then reads.
Symbols of a program hold no dollar sign, so a label of the program, which is
its scope, a dollar sign and its name, differs from every label that starts
with a dollar sign, as those made up here do.

* **`Instruction.code`** — the lines for an instruction in a scope, with the
  numbers for its labels;
* **`bootstrap`** — the lines that begin a program.
-/
import HackVm.Assembly.Labels
import HackVm.Assembly.Line

namespace HackVm

open Assembly

/-- Where an instruction stands: its unit and the function that it is in, if any. -/
structure Scope where
  unit : String
  function : Option String := none
  deriving DecidableEq, Repr

/-- The symbol of a label of the program. -/
def Scope.label (scope : Scope) (name : String) : String :=
  scope.function.getD scope.unit ++ "$" ++ name

/-- The symbol of a static word. -/
def Scope.static (scope : Scope) (index : UInt16) : String :=
  scope.unit ++ "." ++ toString index.toNat

/-- The scope of an instruction and of those behind it; a function begins a scope. -/
def Scope.enter (scope : Scope) : Instruction → Scope
  | .function name _ => { scope with function := some name }
  | _ => scope

/-- The condition on the difference of two words under which they compare as asked. -/
def CompareOp.jump : CompareOp → Jump
  | .eq => .eq
  | .gt => .gt
  | .lt => .lt

/-- The computation of a binary operation on the data register and a memory cell. -/
def BinaryOp.comp : BinaryOp → Comp
  | .add => .dPlusY .m
  | .sub => .dMinusY .m
  | .and => .dAndY .m
  | .or => .dOrY .m

/-- The computation of a unary operation on a memory cell. -/
def UnaryOp.comp : UnaryOp → Comp
  | .neg => .negY .m
  | .not => .notY .m

namespace Template

/-- Load the address register from a symbol. -/
def load (symbol : String) : Line :=
  .command (.address symbol)

/-- Load the address register with a number. -/
def loadNumber (n : Nat) : Line :=
  load (toString n)

/-- Store a computed word in the address register. -/
def setA (comp : Comp) : Line :=
  .command (.compute { a := true } comp .never)

/-- Store a computed word in the data register. -/
def setD (comp : Comp) : Line :=
  .command (.compute { d := true } comp .never)

/-- Store a computed word in memory. -/
def setM (comp : Comp) : Line :=
  .command (.compute { m := true } comp .never)

/-- Store a computed word in the address register and where that pointed before. -/
def setAM (comp : Comp) : Line :=
  .command (.compute { a := true, m := true } comp .never)

/-- Jump on the sign of the data register. -/
def jumpOnD (jump : Jump) : Line :=
  .command (.compute {} .d jump)

/-- Jump. -/
def jumpAlways : Line :=
  .command (.compute {} .zero .always)

/-- The cell for a popped word or a right operand. -/
def scratchA : String := "R13"

/-- The cell for an address or a left operand. -/
def scratchB : String := "R14"

/-- The cells that a call saves, in the order in which it pushes them. -/
def frame : List String := ["LCL", "ARG", "THIS", "THAT"]

/-- Push the data register. -/
def pushD : List Line :=
  [load "SP", setA (.y .m), setM .d, load "SP", setM (.yPlusOne .m)]

/-- Pop into the data register. -/
def popD : List Line :=
  [load "SP", setM (.yMinusOne .m), setA (.y .m), setD (.y .m)]

/-- Pop into a cell. -/
def popTo (cell : String) : List Line :=
  popD ++ [load cell, setM .d]

/-- The cell of the temp segment at an index. -/
def tempCell (index : UInt16) : String :=
  "R" ++ toString (5 + index.toNat)

/-- Load the data register with a number, which may be negative. -/
def loadD (n : Int16) : List Line :=
  if 0 ≤ n then [loadNumber n.toInt.toNat, setD (.y .a)]
  else if n = Int16.minValue then [loadNumber 32767, setD (.negY .a), setD .dMinusOne]
  else [loadNumber (-n.toInt).toNat, setD (.negY .a)]

/-- Push a number. Minus one needs no load. -/
def pushNumber (n : Int16) : List Line :=
  if n = -1 then [load "SP", setA (.y .m), setM .minusOne, load "SP", setM (.yPlusOne .m)]
  else loadD n ++ pushD

/-- Push a number, in the frame of the instruction that does so. -/
def pushConstant (n : Int16) : List Line :=
  framed (Instruction.pushConstant n).text (pushNumber n)

/-- Push the word at an index from a base. -/
def pushBased (base : String) (index : UInt16) : List Line :=
  [loadNumber index.toNat, setD (.y .a), load base, setA (.dPlusY .m), setD (.y .m)] ++ pushD

/-- Pop into the word at an index from a base. -/
def popBased (base : String) (index : UInt16) : List Line :=
  popTo scratchA ++
    [loadNumber index.toNat, setD (.y .a), load base, setD (.dPlusY .m), load scratchB, setM .d,
      load scratchA, setD (.y .m), load scratchB, setA (.y .m), setM .d]

/-- Push the word in a cell. -/
def pushCell (cell : String) : List Line :=
  [load cell, setD (.y .m)] ++ pushD

/-- Replace the two topmost words by a computation on them. -/
def binary (op : BinaryOp) : List Line :=
  popTo scratchA ++ popTo scratchB ++
    [load scratchB, setD (.y .m), load scratchA, setM op.comp, setD (.y .m)] ++ pushD

/-- Replace the topmost word by a computation on it. -/
def unary (op : UnaryOp) : List Line :=
  popTo scratchA ++ [setM op.comp, setD (.y .m)] ++ pushD

/-- A label in the code of a comparison. -/
def compareLabel (op : CompareOp) (part : String) (id : Nat) : String :=
  "$" ++ op.keyword.toUpper ++ "_" ++ part ++ "." ++ toString id

/-- Replace the two topmost words by `-1` or `0`. Words of one sign are compared by their
difference; it could overflow for words of different sign, and there the sign of the left word
stands for it. -/
def compare (op : CompareOp) (id : Nat) : List Line :=
  let label part := compareLabel op part id
  popTo scratchA ++ popTo scratchB ++
    [load scratchB, setD (.y .m), load (label "LNEG"), jumpOnD .lt,
      load scratchA, setD (.y .m), load (label "SUB"), jumpOnD .ge,
      setD .one, load (label "TEST"), jumpAlways,
      .label (label "LNEG"),
      load scratchA, setD (.y .m), load (label "SUB"), jumpOnD .lt,
      setD .minusOne, load (label "TEST"), jumpAlways,
      .label (label "SUB"),
      load scratchB, setD (.y .m), load scratchA, setD (.dMinusY .m),
      .label (label "TEST"),
      load (label "TRUE"), jumpOnD op.jump] ++
    pushConstant 0 ++
    [load (label "END"), jumpAlways, .label (label "TRUE")] ++
    pushConstant (-1) ++
    [.label (label "END")]

/-- Jump to a label. -/
def goto (symbol : String) : List Line :=
  [load symbol, jumpAlways]

/-- Pop the topmost word and jump to a label if it is not zero. -/
def ifGoto (symbol : String) : List Line :=
  popD ++ [load symbol, jumpOnD .ne]

/-- Begin a function: its label, and a zero for each of its local words. -/
def function (name : String) (locals : UInt16) : List Line :=
  .label name :: (List.replicate locals.toNat (pushConstant 0)).flatten

/-- The label that a call returns to. -/
def returnLabel (name : String) (id : Nat) : String :=
  "$" ++ name ++ "$ret." ++ toString id

/-- Call a function. Above its arguments the return address and the saved cells are pushed, and
its local words follow. -/
def call (name : String) (args : UInt16) (id : Nat) : List Line :=
  [load (returnLabel name id), setD (.y .a)] ++ pushD ++
    frame.flatMap pushCell ++
    [load "SP", setD (.y .m), loadNumber (args.toNat + 5), setD (.dMinusY .a), load "ARG", setM .d,
      load "SP", setD (.y .m), load "LCL", setM .d,
      load name, jumpAlways, .label (returnLabel name id)]

/-- Leave a function. The return address is read before the result is stored, because with no
arguments the result takes its place. -/
def ret : List Line :=
  [load "LCL", setD (.y .m), load scratchA, setM .d,
    loadNumber 5, setA (.dMinusY .a), setD (.y .m), load scratchB, setM .d] ++
    popD ++
    [load "ARG", setA (.y .m), setM .d,
      load "ARG", setD (.yPlusOne .m), load "SP", setM .d] ++
    frame.reverse.flatMap (fun cell =>
      [load scratchA, setAM (.yMinusOne .m), setD (.y .m), load cell, setM .d]) ++
    [load scratchB, setA (.y .m), jumpAlways]

/-- The lines for an instruction between the comments of its frame. -/
def body (scope : Scope) (labels : Labels) : Instruction → List Line
  | .pushConstant n => pushNumber n
  | .pushSegment segment i => pushBased segment.baseSymbol i
  | .popSegment segment i => popBased segment.baseSymbol i
  | .pushStatic i => pushCell (scope.static i)
  | .popStatic i => popTo (scope.static i)
  | .pushPointer slot => pushCell slot.symbol
  | .popPointer slot => popTo slot.symbol
  | .pushTemp i => pushCell (tempCell i)
  | .popTemp i => popTo (tempCell i)
  | .binary op => binary op
  | .unary op => unary op
  | .compare op => compare op (labels.next .compare)
  | .label name => [.label (scope.label name)]
  | .goto name => goto (scope.label name)
  | .ifGoto name => ifGoto (scope.label name)
  | .function name n => function name n
  | .call name n => call name n (labels.next .call)
  | .return => ret

end Template

/-- The lines for an instruction. -/
def Instruction.code (scope : Scope) (labels : Labels) (i : Instruction) : List Line :=
  framed i.text (Template.body scope labels i)

open Template in
/-- The lines that begin a program: set the address of the stack and call a function without
arguments, whose return label takes the given number. -/
def bootstrap (stackBase : UInt16) (entry : String) (id : Nat) : List Line :=
  framed "bootstrap"
    ([loadNumber stackBase.toNat, setD (.y .a), load "SP", setM .d] ++
      framed (Instruction.call entry 0).text (call entry 0 id))

end HackVm
