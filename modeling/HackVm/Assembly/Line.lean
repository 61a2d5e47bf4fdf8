/-
Lines of assembly.

A program is a list of lines: commands, labels, and comments that frame the code
of one instruction between its title and the same title behind a tilde
(`framed`). The comments are always there; `printed` leaves them out if the
reader does not want them, and does so part by part (`printed_append`).
-/
import HackVm.Assembly.Command

namespace HackVm.Assembly

/-- A line of assembly. -/
inductive Line where
  /-- The comment at the beginning of a frame. -/
  | opening (title : String)
  /-- The comment at the end of a frame. -/
  | closing (title : String)
  /-- A name for the command that follows. -/
  | label (name : String)
  | command (c : Command)
  /-- A line that stands as it was written. -/
  | verbatim (text : String)
  deriving DecidableEq, Repr

/-- A line as text. -/
def Line.text : Line → String
  | .opening title => "// " ++ title
  | .closing title => "// ~" ++ title
  | .label name => "(" ++ name ++ ")"
  | .command c => c.text
  | .verbatim text => text

/-- Whether a line is one of the comments of a frame. -/
def Line.isFrame : Line → Bool
  | .opening _ | .closing _ => true
  | _ => false

/-- Lines between the two comments of a frame. -/
def framed (title : String) (body : List Line) : List Line :=
  .opening title :: body ++ [.closing title]

/-- The lines that are printed: all of them, or those that are no comments of a frame. -/
def kept (annotate : Bool) (lines : List Line) : List Line :=
  if annotate then lines else lines.filter fun l => !l.isFrame

/-- Lines as texts, with the comments of frames or without. -/
def printed (annotate : Bool) (lines : List Line) : List String :=
  (kept annotate lines).map Line.text

/-- Printing keeps the parts of a program apart. -/
@[simp] theorem kept_append (annotate : Bool) (first second : List Line) :
    kept annotate (first ++ second) = kept annotate first ++ kept annotate second := by
  cases annotate <;> simp [kept]

/-- The text of a program is that of its parts, one after the other. -/
@[simp] theorem printed_append (annotate : Bool) (first second : List Line) :
    printed annotate (first ++ second) = printed annotate first ++ printed annotate second := by
  simp [printed]

end HackVm.Assembly
