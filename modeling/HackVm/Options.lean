/-
The settings of the translator.
-/

namespace HackVm

/-- The settings of the translator, with the values they have unless set. -/
structure Options where
  /-- Whether the program begins with code that sets the stack up and calls the entry. -/
  bootstrap : Bool := true
  /-- The function that is called first. -/
  entry : String := "Sys.init"
  /-- The address of the first word of the stack. -/
  stackBase : UInt16 := 256
  /-- Whether a single word that is no opcode is an error. -/
  strict : Bool := false
  /-- Whether the code of each instruction stands between two comments. -/
  annotate : Bool := true
  deriving DecidableEq, Repr

end HackVm
