/-
The instructions of the target machine.

A `Command` either loads the address register from a symbol or a number, or
computes a word, stores it in any of three places and jumps on its sign. There
are 28 computations (`Comp`); those that need a second operand take it from the
address register or from the memory cell that it addresses. `Command.text` is a
command as a line of assembly.
-/

namespace HackVm.Assembly

/-- Where a computation takes its second operand from. -/
inductive Source where
  /-- The address register. -/
  | a
  /-- The memory cell that the address register addresses. -/
  | m
  deriving DecidableEq, Repr

/-- A computation on the data register, called `d` here, and a second operand `y`. -/
inductive Comp where
  | zero
  | one
  | minusOne
  | d
  | y (source : Source)
  | notD
  | notY (source : Source)
  | negD
  | negY (source : Source)
  | dPlusOne
  | yPlusOne (source : Source)
  | dMinusOne
  | yMinusOne (source : Source)
  | dPlusY (source : Source)
  | dMinusY (source : Source)
  | yMinusD (source : Source)
  | dAndY (source : Source)
  | dOrY (source : Source)
  deriving DecidableEq, Repr

/-- The places that a computed word is stored in. -/
structure Dest where
  a : Bool := false
  m : Bool := false
  d : Bool := false
  deriving DecidableEq, Repr

/-- When a command jumps, by the sign of the computed word. -/
inductive Jump where
  | never
  | gt
  | eq
  | ge
  | lt
  | ne
  | le
  | always
  /-- A condition that the machine does not know, as it is written. -/
  | unknown (condition : String)
  deriving DecidableEq, Repr

/-- An instruction of the target machine. -/
inductive Command where
  /-- Load the address register from a symbol, which may be a number in decimal. -/
  | address (symbol : String)
  /-- Compute a word, store it, and jump. -/
  | compute (dest : Dest) (comp : Comp) (jump : Jump)
  deriving DecidableEq, Repr

/-- The letter for a source. -/
def Source.text : Source → String
  | .a => "A"
  | .m => "M"

/-- A computation as it is written. -/
def Comp.text : Comp → String
  | .zero => "0"
  | .one => "1"
  | .minusOne => "-1"
  | .d => "D"
  | .y s => s.text
  | .notD => "!D"
  | .notY s => "!" ++ s.text
  | .negD => "-D"
  | .negY s => "-" ++ s.text
  | .dPlusOne => "D+1"
  | .yPlusOne s => s.text ++ "+1"
  | .dMinusOne => "D-1"
  | .yMinusOne s => s.text ++ "-1"
  | .dPlusY s => "D+" ++ s.text
  | .dMinusY s => "D-" ++ s.text
  | .yMinusD s => s.text ++ "-D"
  | .dAndY s => "D&" ++ s.text
  | .dOrY s => "D|" ++ s.text

/-- The places of a destination and the sign that ends them, or nothing if there are none. -/
def Dest.text (dest : Dest) : String :=
  let places := (if dest.a then "A" else "") ++ (if dest.m then "M" else "") ++
    (if dest.d then "D" else "")
  if places = "" then "" else places ++ "="

/-- The word for a jump, if there is one. -/
def Jump.mnemonic? : Jump → Option String
  | .never => none
  | .gt => some "JGT"
  | .eq => some "JEQ"
  | .ge => some "JGE"
  | .lt => some "JLT"
  | .ne => some "JNE"
  | .le => some "JLE"
  | .always => some "JMP"
  | .unknown condition => some condition

/-- The jump that a word stands for. -/
def Jump.ofMnemonic : String → Jump
  | "JGT" => .gt
  | "JEQ" => .eq
  | "JGE" => .ge
  | "JLT" => .lt
  | "JNE" => .ne
  | "JLE" => .le
  | "JMP" => .always
  | condition => .unknown condition

/-- The end of a command that jumps. -/
def Jump.text (jump : Jump) : String :=
  match jump.mnemonic? with
  | none => ""
  | some word => ";" ++ word

/-- A command as a line of assembly. -/
def Command.text : Command → String
  | .address symbol => "@" ++ symbol
  | .compute dest comp jump => dest.text ++ comp.text ++ jump.text

/-- All computations. -/
def Comp.all : List Comp :=
  [.zero, .one, .minusOne, .d, .y .a, .y .m, .notD, .notY .a, .notY .m, .negD, .negY .a, .negY .m,
    .dPlusOne, .yPlusOne .a, .yPlusOne .m, .dMinusOne, .yMinusOne .a, .yMinusOne .m,
    .dPlusY .a, .dPlusY .m, .dMinusY .a, .dMinusY .m, .yMinusD .a, .yMinusD .m,
    .dAndY .a, .dAndY .m, .dOrY .a, .dOrY .m]

/-- The ways to write a computation. A sum, a conjunction and a disjunction may name their
operands in either order. -/
def Comp.spellings (comp : Comp) : List String :=
  match comp with
  | .dPlusY s => [comp.text, s.text ++ "+D"]
  | .dAndY s => [comp.text, s.text ++ "&D"]
  | .dOrY s => [comp.text, s.text ++ "|D"]
  | _ => [comp.text]

/-- The computation that a text is a spelling of. -/
def Comp.ofText? (text : String) : Option Comp :=
  Comp.all.find? fun comp => comp.spellings.contains text

/-- A written computation is read back. -/
theorem Comp.ofText?_text (comp : Comp) : Comp.ofText? comp.text = some comp := by
  cases comp <;> (try cases ‹Source›) <;> decide

end HackVm.Assembly
