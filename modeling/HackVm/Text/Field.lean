/-
Texts set in fields of a least width. A text longer than its field is set as it
is.
-/

namespace HackVm.Text

/-- A number in decimal, with zeros in front up to the given width. -/
def zeroPadded (width n : Nat) : String :=
  String.ofList ((Nat.toDigits 10 n).leftpad width '0')

/-- A text with spaces after it up to the given width. -/
def leftAligned (width : Nat) (text : String) : String :=
  String.ofList (text.toList.rightpad width ' ')

end HackVm.Text
