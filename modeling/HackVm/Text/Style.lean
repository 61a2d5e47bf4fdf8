/-
The colours of a terminal.

A `Style` is switched on by its escape sequence and off by that of
`Style.reset`; `Style.paint` does both around a text.
-/

namespace HackVm.Text

/-- A way of showing text on a terminal. -/
inductive Style where
  /-- As the terminal shows text by itself, switched on by nothing. -/
  | plain
  | reset
  | dim
  | green
  | yellow
  | magenta
  | cyan
  | boldRed
  | boldYellow
  deriving DecidableEq, Repr

/-- The escape sequence that switches a style on. -/
def Style.code : Style → String
  | .plain => ""
  | .reset => "\x1b[0m"
  | .dim => "\x1b[2m"
  | .green => "\x1b[32m"
  | .yellow => "\x1b[33m"
  | .magenta => "\x1b[35m"
  | .cyan => "\x1b[36m"
  | .boldRed => "\x1b[1;31m"
  | .boldYellow => "\x1b[1;33m"

/-- A text in a style if there is colour, and as it is if there is none. -/
def Style.paint (style : Style) (color : Bool) (text : String) : String :=
  if color then style.code ++ text ++ Style.reset.code else text

end HackVm.Text
