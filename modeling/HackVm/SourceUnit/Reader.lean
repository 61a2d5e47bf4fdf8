/-
Reading a source file as a unit.

`SourceUnit.read` reads the lines in order. A blank line adds nothing, and the
first line that is no instruction ends the reading with an error. A single word
that is no opcode is such a line if the reading is strict; otherwise it is
skipped and told.
-/
import HackVm.Instruction.Reader
import HackVm.Log
import HackVm.SourceUnit.Basic
import HackVm.TranslateError

namespace HackVm

/-- The instructions of the lines of a unit, the first of which has the given number. -/
def SourceUnit.readLines (name : String) (strict : Bool) (number : Nat) :
    List String → Logged (Except TranslateError (List SourceLine))
  | [] => ⟨[], .ok []⟩
  | line :: rest =>
    match readLine line with
    | .error e => ⟨[], .error (.malformedLine name number e)⟩
    | .ok .blank => readLines name strict (number + 1) rest
    | .ok (.instruction i) =>
      (readLines name strict (number + 1) rest).map fun r => r.map (⟨number, i⟩ :: ·)
    | .ok (.unknownOpcode word) =>
      if strict then ⟨[], .error (.unknownOpcode name number word)⟩
      else (readLines name strict (number + 1) rest).after (.skippedOpcode name number word)

/-- The unit that a source text is read as. -/
def SourceUnit.read (name source : String) (strict : Bool) :
    Logged (Except TranslateError SourceUnit) :=
  let lines := (Text.lines source.toList).map String.ofList
  (readLines name strict 1 lines).map fun r => r.map (SourceUnit.mk name)

end HackVm
