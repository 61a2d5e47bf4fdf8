/-
Natural numbers as bytes of seven bits each, the lowest bits first.

* **`encodeVarint`** — every byte but the last has its highest bit set, and the
  last is not zero unless the number is;
* **`decodeVarint`** — the number at the front of a byte string and the bytes
  behind it. It is told how many bits the number may have, and refuses bits
  beyond them even where they are zero; within them it takes a number that is
  written longer than need be.
-/
import HackVm.Bundle.Error

namespace HackVm.Bundle

/-- A number in groups of seven bits, the highest bit of a byte set if another follows. -/
def encodeVarint (n : Nat) : List UInt8 :=
  if n < 128 then [UInt8.ofNat n]
  else UInt8.ofNat (n % 128 + 128) :: encodeVarint (n / 128)

/-- The number of at most `bits` bits at the front of a byte string, and the bytes behind it. -/
def decodeVarint (bits : Nat) : List UInt8 → Except BundleError (Nat × List UInt8)
  | [] => .error .endOfBytes
  | b :: rest =>
    if bits ≤ 7 then
      if b.toNat < 128 ∧ b.toNat < 2 ^ bits then .ok (b.toNat, rest) else .error .badNumber
    else if b.toNat < 128 then .ok (b.toNat, rest)
    else match decodeVarint (bits - 7) rest with
      | .ok (high, rest) => .ok (b.toNat - 128 + 128 * high, rest)
      | .error e => .error e

end HackVm.Bundle
