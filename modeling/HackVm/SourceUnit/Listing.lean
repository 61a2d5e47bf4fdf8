/-
The listing of a unit: a heading with its name and length, and below it one line
for each instruction with the number of its source line, its kind and its text.
-/
import HackVm.SourceUnit.Basic
import HackVm.Text.Field
import HackVm.Text.Style

namespace HackVm

open Text

/-- The word for the kind of an instruction in a listing. -/
def Instruction.kind : Instruction → String
  | .pushConstant _ | .pushSegment .. | .pushStatic _ | .pushPointer _ | .pushTemp _ => "PUSH"
  | .popSegment .. | .popStatic _ | .popPointer _ | .popTemp _ => "POP"
  | .binary _ | .unary _ => "ALU"
  | .compare _ => "CMP"
  | .label _ | .goto _ | .ifGoto _ => "BRANCH"
  | .function .. | .call .. | .return => "FUNC"

/-- The style of an instruction in a listing. -/
def Instruction.style : Instruction → Style
  | .pushConstant _ => .cyan
  | .binary _ | .unary _ | .compare _ => .magenta
  | .label _ | .goto _ | .ifGoto _ => .yellow
  | .function .. | .call .. | .return => .green
  | _ => .reset

/-- The line of a listing for one instruction, its kind in a field of eight characters. -/
def SourceLine.listing (color : Bool) (l : SourceLine) : String :=
  let i := l.instruction
  s!"[{zeroPadded 4 l.number}] " ++ i.style.paint color s!"{leftAligned 8 i.kind} {i.text}"

/-- The listing of a unit. -/
def SourceUnit.listing (color : Bool) (u : SourceUnit) : List String :=
  Style.dim.paint color s!"── {u.name} ({u.lines.length} instructions)" ::
    u.lines.map (SourceLine.listing color)

end HackVm
