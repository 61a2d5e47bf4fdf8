/-
Why a run of the program fails.
-/
import HackVm.Bundle.Error
import HackVm.Disk
import HackVm.TranslateError

namespace HackVm

/-- Why a source file cannot be read. -/
inductive ReadError where
  | os (error : OsError)
  /-- Its bytes are no text. -/
  | notText
  deriving DecidableEq, Repr

/-- A read error in words. -/
def ReadError.message : ReadError → String
  | .os error => error.message
  | .notText => "stream did not contain valid UTF-8"

/-- Why a run of the program fails. -/
inductive Failure where
  /-- There is no source file in a directory. -/
  | noSources (dir : Path)
  /-- The input is neither a directory nor a file of a known kind. -/
  | unknownInput (input : Path)
  | unreadable (file : Path) (error : ReadError)
  | badBundle (file : Path) (error : BundleError)
  | badSource (file : Path) (error : TranslateError)
  | untranslatable (error : TranslateError)
  | unwritable (file : Path) (error : OsError)
  deriving DecidableEq, Repr

/-- A failure in words: what was being done, and what went wrong. -/
def Failure.message : Failure → String
  | .noSources dir => s!"no .vm files in {dir.text}"
  | .unknownInput input =>
    s!"expected a .vm file, a .vmir bundle or a directory, got {input.text}"
  | .unreadable file error => s!"reading {file.text}: {error.message}"
  | .badBundle file error => s!"decoding {file.text}: {error.message}"
  | .badSource file error => s!"in {file.text}: {error.fullMessage}"
  | .untranslatable error => error.fullMessage
  | .unwritable file error => s!"writing {file.text}: {error.message}"

end HackVm
