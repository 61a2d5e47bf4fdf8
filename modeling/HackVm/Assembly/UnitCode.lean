/-
The assembly for a sequence of instructions.

Each instruction is translated in the scope that the functions before it have
entered and with the label numbers that the instructions before it have left.
-/
import HackVm.Assembly.Template

namespace HackVm

open Assembly

/-- The lines for a sequence of instructions that begins in a scope, with the numbers for its
labels. -/
def codeFrom (scope : Scope) (labels : Labels) : List Instruction → List Line
  | [] => []
  | i :: rest =>
    let inner := scope.enter i
    i.code inner labels ++ codeFrom inner (labels.after i) rest

/-- The label numbers after a sequence of instructions was translated. -/
def Labels.afterAll (labels : Labels) (is : List Instruction) : Labels :=
  is.foldl Labels.after labels

end HackVm
