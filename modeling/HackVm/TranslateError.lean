/-
Why a program cannot be translated.

`TranslateError.message` is what the user is told, with a hint where there is
one, and `TranslateError.line?` the number of the line to blame.
-/
import HackVm.Instruction.Error

namespace HackVm

/-- Why a program cannot be translated. -/
inductive TranslateError where
  /-- A line of a unit is no instruction. -/
  | malformedLine (unit : String) (line : Nat) (error : LineError)
  /-- A single word is no opcode, where these are not skipped. -/
  | unknownOpcode (unit : String) (line : Nat) (opcode : String)
  /-- Two units of one name would share their static words. -/
  | duplicateUnit (unit : String)
  | invalidUnitName (unit : String)
  deriving DecidableEq, Repr

/-- The error in words. -/
def TranslateError.message : TranslateError → String
  | .malformedLine unit line error =>
    s!"{unit}:{line}: {error.message}\n  hint: fix or remove `{error.text}`; " ++
      "translation stopped here"
  | .unknownOpcode unit line opcode =>
    s!"{unit}:{line}: unknown opcode '{opcode}'\n  hint: drop --strict to skip unknown opcodes"
  | .duplicateUnit unit =>
    s!"unit '{unit}' appears twice in one program\n" ++
      "  hint: unit names namespace static variables and must be unique"
  | .invalidUnitName unit => s!"'{unit}' cannot be used as a unit name"

/-- The error in words, followed by the error that it stems from. -/
def TranslateError.fullMessage (e : TranslateError) : String :=
  match e with
  | .malformedLine _ _ error => s!"{e.message}: {error.message}"
  | _ => e.message

/-- The line that an error points at. -/
def TranslateError.line? : TranslateError → Option Nat
  | .malformedLine _ line _ | .unknownOpcode _ line _ => some line
  | .duplicateUnit _ | .invalidUnitName _ => none

end HackVm
