/-
The target machine.

The machine has a memory of 32768 words of 16 bits (`memorySize`), an address
register, a data register and a counter for the instructions of its program,
whose symbols are resolved (`Op`). `step` carries out one instruction: it reads
memory, computes, writes memory, sets the registers and jumps to where the
address register pointed before, in this order. What goes wrong on the way is a
`Fault`, and what was done before it stays done.
-/
import HackVm.Assembly.Command
import Std.Data.TreeMap.Basic

namespace HackVm.Machine

open Assembly

/-- A word of the machine: an address if read unsigned, a number if read signed. -/
abbrev Word := BitVec 16

/-- The number of words in memory. -/
def memorySize : Nat := 32768

/-- An instruction with its symbol resolved. -/
inductive Op where
  | address (value : Word)
  | compute (dest : Dest) (comp : Comp) (jump : Jump)
  deriving DecidableEq, Repr

/-- A program: its instructions, and the number of the instruction that each label names. -/
structure Program where
  code : Array Op
  labels : Std.TreeMap String Word

/-- The changing part of the machine. -/
structure State where
  memory : Vector Word memorySize
  a : Word
  d : Word
  pc : Nat

/-- The state in which a program begins. -/
def State.initial : State :=
  { memory := Vector.replicate memorySize 0, a := 0, d := 0, pc := 0 }

/-- The word in a memory cell, and zero where there is no cell. -/
def State.peek (s : State) (cell : Nat) : Word :=
  s.memory[cell]?.getD 0

/-- Writes a word into a memory cell, if there is one. -/
def State.poke (s : State) (cell : Nat) (value : Word) : State :=
  { s with memory := s.memory.setIfInBounds cell value }

/-- What can go wrong in one instruction. -/
inductive Fault where
  | readOutside (cell : Nat)
  | writeOutside (cell : Nat)
  /-- A jump on a condition that the machine does not know. -/
  | badJump (condition : String)
  /-- There is no instruction to carry out. -/
  | outsideProgram (pc : Nat)
  deriving DecidableEq, Repr

/-- A fault in words. -/
def Fault.message : Fault → String
  | .readOutside cell => s!"read outside ram at {cell}"
  | .writeOutside cell => s!"write outside ram at {cell}"
  | .badJump condition => s!"bad jump '{condition}'"
  | .outsideProgram pc => s!"pc {pc} outside program"

/-- Where a computation takes its second operand from, if it has one. -/
def source? : Comp → Option Source
  | .zero | .one | .minusOne | .d | .notD | .negD | .dPlusOne | .dMinusOne => none
  | .y s | .notY s | .negY s | .yPlusOne s | .yMinusOne s | .dPlusY s | .dMinusY s
  | .yMinusD s | .dAndY s | .dOrY s => some s

/-- The result of a computation. Sums and differences wrap around. -/
def eval (comp : Comp) (d y : Word) : Word :=
  match comp with
  | .zero => 0
  | .one => 1
  | .minusOne => -1
  | .d => d
  | .y _ => y
  | .notD => ~~~d
  | .notY _ => ~~~y
  | .negD => -d
  | .negY _ => -y
  | .dPlusOne => d + 1
  | .yPlusOne _ => y + 1
  | .dMinusOne => d - 1
  | .yMinusOne _ => y - 1
  | .dPlusY _ => d + y
  | .dMinusY _ => d - y
  | .yMinusD _ => y - d
  | .dAndY _ => d &&& y
  | .dOrY _ => d ||| y

/-- Whether a condition holds of a word, read signed. Nothing is known of an unknown one. -/
def holds? (jump : Jump) (out : Word) : Except Fault Bool :=
  match jump with
  | .never => .ok false
  | .gt => .ok (0 < out.toInt)
  | .eq => .ok (out.toInt = 0)
  | .ge => .ok (0 ≤ out.toInt)
  | .lt => .ok (out.toInt < 0)
  | .ne => .ok (out.toInt ≠ 0)
  | .le => .ok (out.toInt ≤ 0)
  | .always => .ok true
  | .unknown condition => .error (.badJump condition)

/-- The second operand of a computation. -/
def State.operand (s : State) (comp : Comp) : Except Fault Word :=
  match source? comp with
  | some .m =>
    match s.memory[s.a.toNat]? with
    | some word => .ok word
    | none => .error (.readOutside s.a.toNat)
  | _ => .ok s.a

/-- Stores a word at the places of a destination. -/
def State.store (s : State) (dest : Dest) (out : Word) : State :=
  let { memory, a, d, pc } := s
  { memory := if dest.m then memory.setIfInBounds a.toNat out else memory
    a := if dest.a then out else a
    d := if dest.d then out else d
    pc }

/-- Carries out one instruction: the state after it, and the fault that it ends with, if any. -/
def Op.step (op : Op) (s : State) : State × Option Fault :=
  match op with
  | .address value => ({ s with a := value, pc := s.pc + 1 }, none)
  | .compute dest comp jump =>
    match s.operand comp with
    | .error fault => (s, some fault)
    | .ok y =>
      let out := eval comp s.d y
      let target := s.a.toNat
      if dest.m ∧ memorySize ≤ target then (s, some (.writeOutside target))
      else
        let s := s.store dest out
        match holds? jump out with
        | .error fault => (s, some fault)
        | .ok taken => ({ s with pc := if taken then target else s.pc + 1 }, none)

/-- Carries out the next instruction of a program. -/
def step (p : Program) (s : State) : State × Option Fault :=
  match p.code[s.pc]? with
  | some op => op.step s
  | none => (s, some (.outsideProgram s.pc))

end HackVm.Machine
