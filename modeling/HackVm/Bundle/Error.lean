/-
Why bytes are no bundle.
-/

namespace HackVm

/-- Why bytes are no bundle. -/
inductive BundleError where
  /-- The bytes end where more are needed. -/
  | endOfBytes
  /-- A number is written in too many bytes or is too large. -/
  | badNumber
  /-- The bytes of a text are not UTF-8. -/
  | badText
  /-- A number that stands for no alternative. -/
  | unknownVariant
  deriving DecidableEq, Repr

/-- What is wrong with the bytes, in words. -/
def BundleError.reason : BundleError → String
  | .endOfBytes => "Hit the end of buffer, expected more data"
  | .badNumber =>
    "Found a varint that didn't terminate. Is the usize too big for this platform?"
  | .badText => "Tried to parse invalid utf-8"
  | .unknownVariant => "Serde Deserialization Error"

/-- A bundle error in words. -/
def BundleError.message (e : BundleError) : String :=
  s!"malformed ir bundle: {e.reason}"

end HackVm
