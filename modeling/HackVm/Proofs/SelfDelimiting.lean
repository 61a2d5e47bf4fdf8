/-
Reading bundles back.

A decoder reads bytes as a value (`Decoder.Reads`) if it takes these bytes for the value whatever
follows them, and runs out of bytes wherever they are cut off. Decoders that run one after the other
read their bytes one after the other (`Decoder.Reads.bind`), and so the property climbs from
numbers and texts to instructions (`reads_instruction`), units (`reads_unit`) and whole programs
(`reads_units`). Nothing is asked of the units but that their numbers have the 64 bits that a bundle
has room for (`Fits`); names need not be symbols.

* **`encode_selfDelimiting`** — the bytes of a program are read back whatever follows them, no part
  at their front is read as anything, and no program has bytes that begin those of another.
-/
import HackVm.Bundle.Codec
import HackVm.Proofs.Texts
import Mathlib.Tactic.ByContra

namespace HackVm

/-- The number of bytes of the name in an instruction, none if there is no name. -/
def Instruction.nameSize : Instruction → Nat
  | .label name | .goto name | .ifGoto name | .function name _ | .call name _ => name.utf8ByteSize
  | _ => 0

/-- Whether a line has a number and a name that a bundle has room for. -/
def SourceLine.Fits (l : SourceLine) : Prop :=
  l.number < 2 ^ 64 ∧ l.instruction.nameSize < 2 ^ 64

/-- Whether a bundle has room for the name, the length and the lines of a unit. -/
def SourceUnit.Fits (u : SourceUnit) : Prop :=
  u.name.utf8ByteSize < 2 ^ 64 ∧ u.lines.length < 2 ^ 64 ∧ ∀ l ∈ u.lines, l.Fits

instance (l : SourceLine) : Decidable l.Fits :=
  inferInstanceAs (Decidable (_ ∧ _))

instance (u : SourceUnit) : Decidable u.Fits :=
  inferInstanceAs (Decidable (_ ∧ _ ∧ _))

namespace Bundle

/-- Whether a bundle has room for the units of a program. -/
def Fits (units : List SourceUnit) : Prop :=
  units.length < 2 ^ 64 ∧ ∀ u ∈ units, u.Fits

instance (units : List SourceUnit) : Decidable (Fits units) :=
  inferInstanceAs (Decidable (_ ∧ _))

/-! ### Decoders and their bytes -/

/-- Bytes that a decoder takes for a value whatever follows them, and of which it needs all. -/
structure Decoder.Reads {α : Type} (d : Decoder α) (bytes : List UInt8) (a : α) : Prop where
  whole : ∀ tail, d (bytes ++ tail) = .ok (a, tail)
  cut : ∀ front, front <+: bytes → front ≠ bytes → d front = .error .endOfBytes

section Combinators

variable {α β : Type} {d : Decoder α} {f : α → Decoder β} {x y : List UInt8} {a : α} {b : β}

theorem bind_of_ok {input rest : List UInt8} (h : d input = .ok (a, rest)) :
    (d >>= f) input = f a rest := by
  show (d input >>= fun p => f p.1 p.2) = _
  rw [h]
  rfl

theorem bind_of_error {input : List UInt8} {e : BundleError} (h : d input = .error e) :
    (d >>= f) input = .error e := by
  show (d input >>= fun p => f p.1 p.2) = _
  rw [h]
  rfl

theorem Decoder.Reads.pure (a : α) : Decoder.Reads (pure a) [] a where
  whole _ := rfl
  cut _ hfront hne := absurd (List.prefix_nil.mp hfront) hne

/-- One decoder after the other reads the bytes of the one followed by those of the other. -/
theorem Decoder.Reads.bind (hd : d.Reads x a) (hf : (f a).Reads y b) :
    (d >>= f).Reads (x ++ y) b where
  whole tail := by
    rw [List.append_assoc, bind_of_ok (hd.whole _), hf.whole]
  cut front hfront hne := by
    by_cases hx : x <+: front
    · -- the first part is whole, so the cut is in the second
      obtain ⟨z, rfl⟩ := hx
      rw [bind_of_ok (hd.whole z)]
      refine hf.cut z ((List.prefix_append_right_inj x).mp hfront) ?_
      rintro rfl
      exact hne rfl
    · have hcut : front <+: x := by
        refine (List.prefix_or_prefix_of_prefix hfront (List.prefix_append x y)).resolve_right hx
      refine bind_of_error (hd.cut front hcut ?_)
      rintro rfl
      exact hx List.prefix_rfl

theorem Decoder.Reads.map (hd : d.Reads x a) (g : α → β) :
    Decoder.Reads (d >>= fun a => Pure.pure (g a)) x (g a) := by
  have hbind : Decoder.Reads (d >>= fun a => Pure.pure (g a)) (x ++ []) (g a) :=
    hd.bind (Decoder.Reads.pure (g a))
  rwa [List.append_nil] at hbind

/-- The bytes of one value do not begin those of another. -/
theorem Decoder.Reads.unique {a' : α} (hx : d.Reads x a) (hy : d.Reads y a') (h : x <+: y) :
    a = a' := by
  obtain ⟨tail, rfl⟩ := h
  have hwhole := hy.whole []
  rw [List.append_nil, hx.whole tail] at hwhole
  cases hwhole
  rfl

end Combinators

/-! ### Numbers -/

theorem decodeVarint_last {bits : Nat} {b : UInt8} (rest : List UInt8) (hlast : b.toNat < 128)
    (hb : b.toNat < 2 ^ bits) : decodeVarint bits (b :: rest) = .ok (b.toNat, rest) := by
  show (if bits ≤ 7 then if b.toNat < 128 ∧ b.toNat < 2 ^ bits then _ else _
    else if b.toNat < 128 then _ else _) = _
  by_cases hbits : bits ≤ 7
  · rw [if_pos hbits, if_pos ⟨hlast, hb⟩]
  · rw [if_neg hbits, if_pos hlast]

theorem decodeVarint_more {bits high : Nat} {b : UInt8} {input rest : List UInt8} (hbits : 7 < bits)
    (hb : 128 ≤ b.toNat) (h : decodeVarint (bits - 7) input = .ok (high, rest)) :
    decodeVarint bits (b :: input) = .ok (b.toNat - 128 + 128 * high, rest) := by
  show (if bits ≤ 7 then _ else if b.toNat < 128 then _ else _) = _
  rw [if_neg (by omega), if_neg (by omega), h]

theorem decodeVarint_more_error {bits : Nat} {b : UInt8} {input : List UInt8} {e : BundleError}
    (hbits : 7 < bits) (hb : 128 ≤ b.toNat) (h : decodeVarint (bits - 7) input = .error e) :
    decodeVarint bits (b :: input) = .error e := by
  show (if bits ≤ 7 then _ else if b.toNat < 128 then _ else _) = _
  rw [if_neg (by omega), if_neg (by omega), h]

/-- A number that has the bits is read back. -/
theorem reads_number {n : Nat} {bits : Nat} (h : n < 2 ^ bits) :
    (number bits).Reads (encodeVarint n) n := by
  -- the induction follows the groups of seven bits, each of which leaves seven bits fewer
  fun_induction encodeVarint n generalizing bits with
  | case1 n hn =>
    have hbyte : (UInt8.ofNat n).toNat = n := by
      rw [UInt8.toNat_ofNat']
      omega
    constructor
    · intro tail
      show decodeVarint bits (UInt8.ofNat n :: tail) = _
      rw [decodeVarint_last tail (by omega) (by omega), hbyte]
    · intro front hfront hne
      rcases List.prefix_cons_iff.mp hfront with rfl | ⟨rest, rfl, hrest⟩
      · rfl
      · exact absurd (by rw [List.prefix_nil.mp hrest]) hne
  | case2 n hn ih =>
    have hbyte : (UInt8.ofNat (n % 128 + 128)).toNat = n % 128 + 128 := by
      rw [UInt8.toNat_ofNat']
      omega
    have hbits : 7 < bits := by
      by_contra hlast
      have := Nat.pow_le_pow_right (n := 2) (by decide) (Nat.le_of_not_lt hlast)
      omega
    have hhigh : n / 128 < 2 ^ (bits - 7) := by
      rw [Nat.div_lt_iff_lt_mul (by decide), show 128 = 2 ^ 7 from rfl, ← Nat.pow_add,
        Nat.sub_add_cancel (Nat.le_of_lt hbits)]
      exact h
    have hrest := ih hhigh
    constructor
    · intro tail
      have hwhole : decodeVarint (bits - 7) (encodeVarint (n / 128) ++ tail) = .ok (n / 128, tail) :=
        hrest.whole tail
      show decodeVarint bits (UInt8.ofNat (n % 128 + 128) :: (encodeVarint (n / 128) ++ tail)) = _
      rw [decodeVarint_more hbits (by omega) hwhole, hbyte, Nat.add_sub_cancel, Nat.mod_add_div]
    · intro front hfront hne
      rcases List.prefix_cons_iff.mp hfront with rfl | ⟨rest, rfl, hprefix⟩
      · rfl
      · have hcut : decodeVarint (bits - 7) rest = .error .endOfBytes := by
          refine hrest.cut rest hprefix ?_
          rintro rfl
          exact hne rfl
        exact decodeVarint_more_error hbits (by omega) hcut

theorem reads_uint16 (n : UInt16) : uint16.Reads (encodeVarint n.toNat) n := by
  have hsize : n.toNat < 2 ^ 16 := n.toNat_lt
  have hread := (reads_number hsize).map UInt16.ofNat
  rwa [UInt16.ofNat_toNat] at hread

theorem unzigzag_zigzag (n : Int) : unzigzag (zigzag n) = n := by
  unfold zigzag unzigzag
  split <;> split <;> omega

theorem reads_int16 (n : Int16) : int16.Reads (encodeVarint (zigzag n.toInt)) n := by
  have hsize : zigzag n.toInt < 2 ^ 16 := by
    have := n.toInt_lt
    have := n.le_toInt
    unfold zigzag
    split <;> omega
  have hread := (reads_number hsize).map fun m => Int16.ofInt (unzigzag m)
  rwa [unzigzag_zigzag, Int16.ofInt_toInt] at hread

/-! ### Texts and lists -/

theorem reads_bytes (content : List UInt8) : (bytes content.length).Reads content content where
  whole tail := by
    simp [bytes]
  cut front hfront hne := by
    have hshort : front.length < content.length := by
      refine Nat.lt_of_le_of_ne hfront.length_le ?_
      intro hlength
      exact hne (hfront.eq_of_length hlength)
    have htaken : (front.take content.length).length < content.length := by
      rw [List.length_take]
      omega
    show (if _ then _ else _) = _
    rw [if_pos htaken]

/-- A text is as long as it says, and its bytes are UTF-8. -/
theorem reads_text {s : String} (h : s.utf8ByteSize < 2 ^ 64) : text.Reads (encodeText s) s := by
  have hcontent : (bytes s.utf8ByteSize).Reads s.toUTF8.data.toList s.toUTF8.data.toList := by
    have hread := reads_bytes s.toUTF8.data.toList
    rwa [show s.toUTF8.data.toList.length = s.utf8ByteSize by simp] at hread
  have hread : text.Reads (encodeVarint s.utf8ByteSize ++ (s.toUTF8.data.toList ++ [])) s := by
    refine (reads_number h).bind (hcontent.bind ?_)
    rw [fromUTF8?_toUTF8]
    exact Decoder.Reads.pure s
  rwa [List.append_nil] at hread

/-- Things that are read one by one are read together. -/
theorem reads_times {α : Type} {decoder : Decoder α} {encode : α → List UInt8} {xs : List α}
    (h : ∀ x ∈ xs, decoder.Reads (encode x) x) :
    (times decoder xs.length).Reads (xs.flatMap encode) xs := by
  induction xs with
  | nil => exact Decoder.Reads.pure []
  | cons x rest ih =>
    have hrest := ih fun y hy => h y (List.mem_cons_of_mem x hy)
    exact (h x List.mem_cons_self).bind (hrest.map (x :: ·))

theorem reads_list {α : Type} {decoder : Decoder α} {encode : α → List UInt8} {xs : List α}
    (hlength : xs.length < 2 ^ 64) (h : ∀ x ∈ xs, decoder.Reads (encode x) x) :
    (list decoder).Reads (encodeList encode xs) xs :=
  (reads_number hlength).bind (reads_times h)

/-- A choice is read back if what stands at its number reads the bytes behind it. -/
theorem reads_choice {α : Type} {alternatives : List (Decoder α)} {tag : Nat} {d : Decoder α}
    {fields : List UInt8} {a : α} (hd : alternatives[tag]? = some d) (htag : tag < 2 ^ 32)
    (h : d.Reads fields a) : (choice alternatives).Reads (encodeVarint tag ++ fields) a := by
  refine (reads_number htag).bind ?_
  rw [hd]
  exact h

/-- A choice among values is read back from the number of the value. -/
theorem reads_alternative {α : Type} {values : List α} {tag : Nat} {a : α}
    (ha : values[tag]? = some a) (htag : tag < 2 ^ 32) :
    (choice (values.map pure)).Reads (encodeVarint tag) a := by
  have hd : (values.map pure)[tag]? = some (pure a : Decoder α) := by
    rw [List.getElem?_map, ha]
    rfl
  simpa using reads_choice hd htag (Decoder.Reads.pure a)

/-! ### Instructions and units -/

theorem reads_segment (s : Segment) : segment.Reads (encodeVarint (segmentTag s)) s := by
  cases s <;> exact reads_alternative rfl (by decide)

theorem reads_slot (s : PointerSlot) : slot.Reads (encodeVarint (slotTag s)) s := by
  cases s <;> exact reads_alternative rfl (by decide)

theorem reads_binaryOp (op : BinaryOp) : binaryOp.Reads (encodeVarint (binaryTag op)) op := by
  cases op <;> exact reads_alternative rfl (by decide)

theorem reads_unaryOp (op : UnaryOp) : unaryOp.Reads (encodeVarint (unaryTag op)) op := by
  cases op <;> exact reads_alternative rfl (by decide)

theorem reads_compareOp (op : CompareOp) : compareOp.Reads (encodeVarint (compareTag op)) op := by
  cases op <;> exact reads_alternative rfl (by decide)

theorem instructionTag_lt (i : Instruction) : instructionTag i < 2 ^ 32 := by
  cases i <;> simp [instructionTag]

/-- Every instruction is read back, also one that no line of source holds. -/
theorem reads_instruction {i : Instruction} (h : i.nameSize < 2 ^ 64) :
    instruction.Reads (encodeInstruction i) i := by
  have htag := instructionTag_lt i
  -- each form stands at its number among the alternatives, and its fields are read in order
  cases i with
  | pushConstant n => exact reads_choice rfl htag ((reads_int16 n).map Instruction.pushConstant)
  | pushSegment s i =>
    exact reads_choice rfl htag
      ((reads_segment s).bind ((reads_uint16 i).map (Instruction.pushSegment s)))
  | popSegment s i =>
    exact reads_choice rfl htag
      ((reads_segment s).bind ((reads_uint16 i).map (Instruction.popSegment s)))
  | pushStatic i => exact reads_choice rfl htag ((reads_uint16 i).map Instruction.pushStatic)
  | popStatic i => exact reads_choice rfl htag ((reads_uint16 i).map Instruction.popStatic)
  | pushPointer s => exact reads_choice rfl htag ((reads_slot s).map Instruction.pushPointer)
  | popPointer s => exact reads_choice rfl htag ((reads_slot s).map Instruction.popPointer)
  | pushTemp i => exact reads_choice rfl htag ((reads_uint16 i).map Instruction.pushTemp)
  | popTemp i => exact reads_choice rfl htag ((reads_uint16 i).map Instruction.popTemp)
  | binary op => exact reads_choice rfl htag ((reads_binaryOp op).map Instruction.binary)
  | unary op => exact reads_choice rfl htag ((reads_unaryOp op).map Instruction.unary)
  | compare op => exact reads_choice rfl htag ((reads_compareOp op).map Instruction.compare)
  | label name => exact reads_choice rfl htag ((reads_text h).map Instruction.label)
  | goto name => exact reads_choice rfl htag ((reads_text h).map Instruction.goto)
  | ifGoto name => exact reads_choice rfl htag ((reads_text h).map Instruction.ifGoto)
  | function name n =>
    exact reads_choice rfl htag
      ((reads_text h).bind ((reads_uint16 n).map (Instruction.function name)))
  | call name n =>
    exact reads_choice rfl htag
      ((reads_text h).bind ((reads_uint16 n).map (Instruction.call name)))
  | «return» => exact reads_choice rfl htag (Decoder.Reads.pure Instruction.return)

theorem reads_line {l : SourceLine} (h : l.Fits) : line.Reads (encodeLine l) l :=
  (reads_number h.1).bind ((reads_instruction h.2).map (SourceLine.mk l.number))

theorem reads_unit {u : SourceUnit} (h : u.Fits) : unit.Reads (encodeUnit u) u :=
  (reads_text h.1).bind ((reads_list h.2.1 fun _ hl => reads_line (h.2.2 _ hl)).map
    (SourceUnit.mk u.name))

theorem reads_units {us : List SourceUnit} (h : Fits us) : units.Reads (encode us) us :=
  reads_list h.1 fun _ hu => reads_unit (h.2 _ hu)

/-! ### Bundles -/

/-- The bytes of a program are read back as its units whatever follows them, and wherever they are
cut off they end too early. No two programs have bytes that begin the same way up to the end of
one of them. -/
theorem encode_selfDelimiting {us : List SourceUnit} (h : Fits us) :
    (∀ tail, decode (encode us ++ tail) = .ok us) ∧
      (∀ front, front <+: encode us → front ≠ encode us → decode front = .error .endOfBytes) ∧
      ∀ vs, Fits vs → vs ≠ us → encode vs ≠ encode us ∧
        ¬ encode vs <+: encode us ∧ ¬ encode us <+: encode vs := by
  refine ⟨?_, ?_, ?_⟩
  · intro tail
    rw [decode, (reads_units h).whole tail]
    rfl
  · intro front hfront hne
    rw [decode, (reads_units h).cut front hfront hne]
    rfl
  · intro vs hvs hne
    have hbefore : ¬ encode vs <+: encode us := by
      intro hprefix
      exact hne ((reads_units hvs).unique (reads_units h) hprefix)
    have hbehind : ¬ encode us <+: encode vs := by
      intro hprefix
      exact hne ((reads_units h).unique (reads_units hvs) hprefix).symm
    refine ⟨?_, hbefore, hbehind⟩
    intro heq
    exact hbefore (heq ▸ List.prefix_rfl)

/-- Units with names and operands that no source line gives. -/
def oddUnits : List SourceUnit :=
  [⟨"é $", [⟨2 ^ 64 - 1, .popTemp 9⟩, ⟨0, .call "" 65535⟩, ⟨7, .pushConstant (-32768)⟩]⟩, ⟨"", []⟩]

theorem encode_selfDelimiting_oddUnits :
    Fits oddUnits ∧ decode (encode oddUnits ++ [0xFF]) = .ok oddUnits ∧
      decode (encode oddUnits).dropLast = .error .endOfBytes := by
  have hfits : Fits oddUnits := by
    decide
  have hne : (encode oddUnits).dropLast ≠ encode oddUnits := by
    decide +kernel
  obtain ⟨hwhole, hcut, -⟩ := encode_selfDelimiting hfits
  exact ⟨hfits, hwhole [0xFF], hcut _ (List.dropLast_prefix _) hne⟩

end Bundle

end HackVm
