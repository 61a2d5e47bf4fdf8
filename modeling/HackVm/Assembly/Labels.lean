/-
The numbers in the labels that the translator makes up.

Comparisons and calls are counted apart, over all units of a program. A number
is handed out once, so two labels of one kind differ in it.
-/
import HackVm.Instruction.Basic

namespace HackVm

/-- What a made-up label is for. -/
inductive LabelKind where
  | compare
  | call
  deriving DecidableEq, Repr

/-- The numbers that the next labels take. -/
structure Labels where
  compare : Nat := 0
  call : Nat := 0
  deriving DecidableEq, Repr

/-- The next number for labels of a kind. -/
def Labels.next (labels : Labels) : LabelKind → Nat
  | .compare => labels.compare
  | .call => labels.call

/-- The numbers after one for labels of a kind was handed out. -/
def Labels.take (labels : Labels) : LabelKind → Labels
  | .compare => { labels with compare := labels.compare + 1 }
  | .call => { labels with call := labels.call + 1 }

/-- The kind of the labels in the code of an instruction, if there are any. -/
def Instruction.labelKind? : Instruction → Option LabelKind
  | .compare _ => some .compare
  | .call .. => some .call
  | _ => none

/-- The numbers after an instruction was translated. -/
def Labels.after (labels : Labels) (i : Instruction) : Labels :=
  match i.labelKind? with
  | some kind => labels.take kind
  | none => labels

end HackVm
