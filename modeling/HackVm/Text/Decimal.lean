/-
Natural numbers in decimal digits.

* **`readNat`** — the number that a text of decimal digits stands for, leading
  zeros allowed;
* **`readUInt16`** — the same, for numbers of at most 16 bits.

A number is written by `toString`, and reading takes it back (`readNat_toDigits`).
-/

namespace HackVm.Text

/-- Whether a text is made of decimal digits only; the empty text is. -/
def allDigits (text : List Char) : Bool :=
  text.all Char.isDigit

/-- The number written by a text of one or more decimal digits. -/
def readNat (text : List Char) : Option Nat :=
  if text.isEmpty || !allDigits text then none else some (Nat.ofDigitChars 10 text 0)

/-- The 16-bit number written by a text of one or more decimal digits. -/
def readUInt16 (text : List Char) : Option UInt16 :=
  (readNat text).bind fun n => if n < 65536 then some (UInt16.ofNat n) else none

/-- A written number is read back. -/
theorem readNat_toDigits (n : Nat) : readNat (Nat.toDigits 10 n) = some n := by
  have digits : (Nat.toDigits 10 n).all Char.isDigit = true := by
    simpa using fun c h => Nat.isDigit_of_mem_toDigits (by decide) (by decide) h
  simp [readNat, allDigits, digits, Nat.ofDigitChars_toDigits (b := 10) (n := n)]

end HackVm.Text
