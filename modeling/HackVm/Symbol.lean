/-
The names that a program may give to its labels, functions and units.

A symbol is a non-empty text of ASCII letters, digits, `_`, `.` and `:` that
does not start with a digit (`isSymbol`). The dollar sign is not among them:
it is kept for the labels that the translator makes up, so these never meet a
name of the program.
-/

namespace HackVm

/-- Whether a character may stand in a symbol. -/
def isSymbolChar (c : Char) : Bool :=
  c.isAlphanum || c = '_' || c = '.' || c = ':'

/-- Whether a text is a symbol. -/
def isSymbolText : List Char → Bool
  | [] => false
  | c :: rest => !c.isDigit && isSymbolChar c && rest.all isSymbolChar

/-- Whether a name is a symbol. -/
def isSymbol (name : String) : Bool :=
  isSymbolText name.toList

end HackVm
