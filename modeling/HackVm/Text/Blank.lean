/-
Blank characters, and the ways a text is cut at them.

* **`isBlank`** — the characters with the Unicode property `White_Space`;
* **`trim`** — a text without the blanks at its two ends;
* **`words`** — the runs of characters that are not blank, in order;
* **`lines`** — the pieces between line feeds, each without the carriage return
  that stood before its line feed;
* **`strip`** — a line without its comment and the blanks around the rest.
-/

namespace HackVm.Text

/-- The code points with the property `White_Space`, as closed ranges in increasing order. -/
def blankRanges : List (Nat × Nat) :=
  [(0x09, 0x0D), (0x20, 0x20), (0x85, 0x85), (0xA0, 0xA0), (0x1680, 0x1680), (0x2000, 0x200A),
    (0x2028, 0x2029), (0x202F, 0x202F), (0x205F, 0x205F), (0x3000, 0x3000)]

/-- Whether a character has the property `White_Space`. -/
def isBlank (c : Char) : Bool :=
  blankRanges.any fun range => range.1 ≤ c.toNat && c.toNat ≤ range.2

/-- A text without the blanks before its first and after its last other character. -/
def trim (text : List Char) : List Char :=
  ((text.dropWhile isBlank).reverse.dropWhile isBlank).reverse

/-- The longest runs of characters that are not blank, in order. -/
def words (text : List Char) : List (List Char) :=
  (text.splitOnP isBlank).filter fun word => !word.isEmpty

/-- A line without one carriage return at its end. -/
def dropReturn (line : List Char) : List Char :=
  if line.getLast? = some '\r' then line.dropLast else line

/-- The lines of a text. A line feed ends a line, so what follows the last one is a line only if
it is not empty, and keeps its carriage return. -/
def lines (text : List Char) : List (List Char) :=
  let pieces := text.splitOn '\n'
  pieces.dropLast.map dropReturn ++ (pieces.getLast?.toList.filter fun line => !line.isEmpty)

/-- A text up to the first place where two slashes stand side by side. -/
def beforeSlashes : List Char → List Char
  | '/' :: '/' :: _ => []
  | c :: rest => c :: beforeSlashes rest
  | [] => []

/-- A line without its comment and without the blanks around what is left. -/
def strip (line : List Char) : List Char :=
  trim (beforeSlashes line)

end HackVm.Text
