/-
A source unit: the instructions of one source file.

A program is a list of units in the order in which they are linked. The name of
a unit tells its static words from those of other units.
-/
import HackVm.Instruction.Basic

namespace HackVm

/-- An instruction and the number of its line, counted from one. -/
structure SourceLine where
  number : Nat
  instruction : Instruction
  deriving DecidableEq, Repr

/-- The instructions of one source file under the name of the unit. -/
structure SourceUnit where
  name : String
  lines : List SourceLine
  deriving DecidableEq, Repr

/-- The instructions of a unit without their line numbers. -/
def SourceUnit.instructions (u : SourceUnit) : List Instruction :=
  u.lines.map SourceLine.instruction

end HackVm
