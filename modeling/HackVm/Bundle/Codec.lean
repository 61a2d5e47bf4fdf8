/-
A bundle: the units of a program as one byte string.

A number is a varint, a signed one folded onto the naturals so that small
magnitudes stay small. A text and a list are their length and their content. A
choice among alternatives is the number of the alternative, in the order of its
type, and its fields. Nothing else is written, and what follows the units is not
read.

* **`Bundle.encode`** — the bytes of a list of units;
* **`Bundle.decode`** — the units at the front of a byte string.
-/
import HackVm.Bundle.Varint
import HackVm.SourceUnit.Basic

namespace HackVm.Bundle

/-- A signed number as a natural one: `0, -1, 1, -2, 2, …` become `0, 1, 2, 3, 4, …`. -/
def zigzag (n : Int) : Nat :=
  if 0 ≤ n then 2 * n.toNat else 2 * (-n).toNat - 1

/-- The signed number that a natural one stands for. -/
def unzigzag (n : Nat) : Int :=
  if n % 2 = 0 then (n / 2 : Nat) else -((n + 1) / 2 : Nat)

/-- A text: the number of its bytes in UTF-8 and the bytes. -/
def encodeText (s : String) : List UInt8 :=
  encodeVarint s.utf8ByteSize ++ s.toUTF8.data.toList

/-- A list: the number of its members and the members. -/
def encodeList {α : Type} (encode : α → List UInt8) (xs : List α) : List UInt8 :=
  encodeVarint xs.length ++ xs.flatMap encode

/-- The number of a segment among the segments. -/
def segmentTag : Segment → Nat
  | .local => 0
  | .argument => 1
  | .this => 2
  | .that => 3

/-- The number of a pointer cell among the pointer cells. -/
def slotTag : PointerSlot → Nat
  | .this => 0
  | .that => 1

/-- The number of a binary operation among the binary operations. -/
def binaryTag : BinaryOp → Nat
  | .add => 0
  | .sub => 1
  | .and => 2
  | .or => 3

/-- The number of a unary operation among the unary operations. -/
def unaryTag : UnaryOp → Nat
  | .neg => 0
  | .not => 1

/-- The number of a comparison among the comparisons. -/
def compareTag : CompareOp → Nat
  | .eq => 0
  | .gt => 1
  | .lt => 2

/-- The number of an instruction's form among the forms. -/
def instructionTag : Instruction → Nat
  | .pushConstant _ => 0
  | .pushSegment .. => 1
  | .popSegment .. => 2
  | .pushStatic _ => 3
  | .popStatic _ => 4
  | .pushPointer _ => 5
  | .popPointer _ => 6
  | .pushTemp _ => 7
  | .popTemp _ => 8
  | .binary _ => 9
  | .unary _ => 10
  | .compare _ => 11
  | .label _ => 12
  | .goto _ => 13
  | .ifGoto _ => 14
  | .function .. => 15
  | .call .. => 16
  | .return => 17

/-- The fields of an instruction. -/
def encodeFields : Instruction → List UInt8
  | .pushConstant n => encodeVarint (zigzag n.toInt)
  | .pushSegment segment i | .popSegment segment i =>
    encodeVarint (segmentTag segment) ++ encodeVarint i.toNat
  | .pushStatic i | .popStatic i | .pushTemp i | .popTemp i => encodeVarint i.toNat
  | .pushPointer slot | .popPointer slot => encodeVarint (slotTag slot)
  | .binary op => encodeVarint (binaryTag op)
  | .unary op => encodeVarint (unaryTag op)
  | .compare op => encodeVarint (compareTag op)
  | .label name | .goto name | .ifGoto name => encodeText name
  | .function name n | .call name n => encodeText name ++ encodeVarint n.toNat
  | .return => []

/-- The bytes of an instruction. -/
def encodeInstruction (i : Instruction) : List UInt8 :=
  encodeVarint (instructionTag i) ++ encodeFields i

/-- The bytes of a line. -/
def encodeLine (l : SourceLine) : List UInt8 :=
  encodeVarint l.number ++ encodeInstruction l.instruction

/-- The bytes of a unit. -/
def encodeUnit (u : SourceUnit) : List UInt8 :=
  encodeText u.name ++ encodeList encodeLine u.lines

/-- The bytes of the units of a program. -/
def encode (units : List SourceUnit) : List UInt8 :=
  encodeList encodeUnit units

/-- A reader of the front of a byte string, which leaves the bytes behind what it has read. -/
abbrev Decoder := StateT (List UInt8) (Except BundleError)

/-- A number of at most `bits` bits. -/
def number (bits : Nat) : Decoder Nat :=
  decodeVarint bits

/-- An unsigned 16-bit number. -/
def uint16 : Decoder UInt16 := do
  return UInt16.ofNat (← number 16)

/-- A signed 16-bit number. -/
def int16 : Decoder Int16 := do
  return Int16.ofInt (unzigzag (← number 16))

/-- The given number of bytes. -/
def bytes (count : Nat) : Decoder (List UInt8) := fun input =>
  let front := input.take count
  if front.length < count then .error .endOfBytes else .ok (front, input.drop count)

/-- A text. -/
def text : Decoder String := do
  let front ← bytes (← number 64)
  match String.fromUTF8? ⟨front.toArray⟩ with
  | some s => return s
  | none => throw .badText

/-- The given number of things of one kind. -/
def times {α : Type} (decoder : Decoder α) : Nat → Decoder (List α)
  | 0 => return []
  | n + 1 => do
    let x ← decoder
    let xs ← times decoder n
    return x :: xs

/-- A list. -/
def list {α : Type} (decoder : Decoder α) : Decoder (List α) := do
  times decoder (← number 64)

/-- One of some alternatives, each of which stands at its number. -/
def choice {α : Type} (alternatives : List (Decoder α)) : Decoder α := do
  match alternatives[← number 32]? with
  | some decoder => decoder
  | none => throw .unknownVariant

/-- A segment. -/
def segment : Decoder Segment :=
  choice ([.local, .argument, .this, .that].map pure)

/-- A pointer cell. -/
def slot : Decoder PointerSlot :=
  choice ([.this, .that].map pure)

/-- A binary operation. -/
def binaryOp : Decoder BinaryOp :=
  choice ([.add, .sub, .and, .or].map pure)

/-- A unary operation. -/
def unaryOp : Decoder UnaryOp :=
  choice ([.neg, .not].map pure)

/-- A comparison. -/
def compareOp : Decoder CompareOp :=
  choice ([.eq, .gt, .lt].map pure)

/-- An instruction. -/
def instruction : Decoder Instruction :=
  choice [
    return .pushConstant (← int16),
    return .pushSegment (← segment) (← uint16),
    return .popSegment (← segment) (← uint16),
    return .pushStatic (← uint16),
    return .popStatic (← uint16),
    return .pushPointer (← slot),
    return .popPointer (← slot),
    return .pushTemp (← uint16),
    return .popTemp (← uint16),
    return .binary (← binaryOp),
    return .unary (← unaryOp),
    return .compare (← compareOp),
    return .label (← text),
    return .goto (← text),
    return .ifGoto (← text),
    return .function (← text) (← uint16),
    return .call (← text) (← uint16),
    return .return]

/-- A line. -/
def line : Decoder SourceLine :=
  return ⟨← number 64, ← instruction⟩

/-- A unit. -/
def unit : Decoder SourceUnit :=
  return ⟨← text, ← list line⟩

/-- The units of a program. -/
def units : Decoder (List SourceUnit) :=
  list unit

/-- The units at the front of a byte string. -/
def decode (input : List UInt8) : Except BundleError (List SourceUnit) :=
  (units input).map Prod.fst

end HackVm.Bundle
