/-
The name of the unit in a file.

It is the way from the root of the program to the file, without the extension:
the texts of its steps with a colon between two. Letters, digits and dots stand
for themselves, an underscore is doubled, and every other byte is an underscore
and two hexadecimal digits, and so is a digit at the beginning of a step. So the
name is a symbol, and the steps can be read off it.
-/
import HackVm.Path

namespace HackVm

/-- A byte as an underscore and two hexadecimal digits, the letters in upper case. -/
def escapeByte (b : UInt8) : List Char :=
  ['_', (Nat.digitChar (b.toNat / 16)).toUpper, (Nat.digitChar (b.toNat % 16)).toUpper]

/-- A character as it stands in the name of a unit. -/
def escapeChar (first : Bool) (c : Char) : List Char :=
  if c = '_' then ['_', '_']
  else if (c.isAlphanum && !(first && c.isDigit)) || c = '.' then [c]
  else (String.utf8EncodeChar c).flatMap escapeByte

/-- A step of a path as it stands in the name of a unit. -/
def escapeStep (text : List Char) : List Char :=
  match text with
  | [] => []
  | c :: rest => escapeChar true c ++ rest.flatMap (escapeChar false)

/-- The name of the unit in a file of the program below a root. -/
def unitName (root file : Path) : String :=
  let relative := (root.below? file).getD file
  let steps := (relative.withExtension "").components.map Component.text
  let name := ":".intercalate (steps.map fun step => String.ofList (escapeStep step.toList))
  if name = "" then "_" else name

end HackVm
