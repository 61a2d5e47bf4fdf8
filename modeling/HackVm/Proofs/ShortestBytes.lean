/-
The shortest bytes of a program.

A number may be written longer than need be, and nothing else in a bundle may be written in two
ways. So the bytes that a decoder takes for a value are those that the value is encoded in, or they
are more (`Abbreviates`). `Decoder.Takes` says what holds of a value and the bytes taken for it;
it is passed on from one decoder to the next (`Decoder.Takes.bind`).

* **`encode_shortest`** — units that were decoded are encoded in at most the bytes that were taken
  for them, and in as many only if in the same; no other bytes that are decoded as the units are as
  few, and the units have no more lines and letters than there were bytes.
-/
import HackVm.Proofs.SelfDelimiting
import Mathlib.Algebra.GroupWithZero.Nat

namespace HackVm

/-- The number of bytes of the names in a unit. -/
def SourceUnit.nameSize (u : SourceUnit) : Nat :=
  u.name.utf8ByteSize + (u.lines.map fun l => l.instruction.nameSize).sum

namespace Bundle

/-- Whether bytes are fewer than others, or the same. -/
def Abbreviates (short long : List UInt8) : Prop :=
  short.length ≤ long.length ∧ (short.length = long.length → short = long)

theorem Abbreviates.refl (bytes : List UInt8) : Abbreviates bytes bytes :=
  ⟨Nat.le_refl _, fun _ => rfl⟩

theorem Abbreviates.append {x x' y y' : List UInt8} (hx : Abbreviates x x')
    (hy : Abbreviates y y') : Abbreviates (x ++ y) (x' ++ y') := by
  have hxlength := hx.1
  have hylength := hy.1
  constructor
  · rw [List.length_append, List.length_append]
    omega
  · intro hlength
    rw [List.length_append, List.length_append] at hlength
    rw [hx.2 (by omega), hy.2 (by omega)]

/-! ### What decoders take -/

/-- Whether a decoder takes bytes at the front of its input, which stand in a relation to the value
that it takes them for. -/
def Decoder.Takes {α : Type} (d : Decoder α) (R : α → List UInt8 → Prop) : Prop :=
  ∀ input a rest, d input = .ok (a, rest) → ∃ used, input = used ++ rest ∧ R a used

section Combinators

variable {α β : Type} {d : Decoder α} {f : α → Decoder β} {R : α → List UInt8 → Prop}
  {S : β → List UInt8 → Prop}

theorem Decoder.Takes.pure {a : α} (h : R a []) : Decoder.Takes (pure a) R := by
  intro input b rest heq
  cases heq
  exact ⟨[], rfl, h⟩

theorem takes_throw (e : BundleError) : Decoder.Takes (throw e) R := by
  intro input a rest heq
  cases heq

/-- One decoder after the other takes what the one takes and then what the other does. -/
theorem Decoder.Takes.bind (hd : d.Takes R)
    (hf : ∀ a x, R a x → (f a).Takes fun b y => S b (x ++ y)) : (d >>= f).Takes S := by
  intro input b rest h
  cases hfirst : d input with
  | error e =>
    rw [bind_of_error hfirst] at h
    cases h
  | ok first =>
    obtain ⟨a, middle⟩ := first
    rw [bind_of_ok hfirst] at h
    obtain ⟨x, rfl, hx⟩ := hd input a middle hfirst
    obtain ⟨y, rfl, hy⟩ := hf a x hx middle b rest h
    exact ⟨x ++ y, (List.append_assoc x y rest).symm, hy⟩

theorem Decoder.Takes.map {g : α → β} (hd : d.Takes R) (h : ∀ a x, R a x → S (g a) x) :
    Decoder.Takes (d >>= fun a => Pure.pure (g a)) S := by
  refine hd.bind fun a x hx => Decoder.Takes.pure ?_
  rw [List.append_nil]
  exact h a x hx

end Combinators

/-! ### Numbers -/

theorem encodeVarint_ne_nil (n : Nat) : encodeVarint n ≠ [] := by
  rw [encodeVarint]
  split <;> exact List.cons_ne_nil _ _

/-- A byte with its highest bit set and the bytes of the number behind it lengthen the number that
they make up, unless they are its own bytes. -/
theorem abbreviates_more {b : UInt8} {high : Nat} {used : List UInt8} (hb : 128 ≤ b.toNat)
    (h : Abbreviates (encodeVarint high) used) :
    Abbreviates (encodeVarint (b.toNat - 128 + 128 * high)) (b :: used) := by
  have hbyte := b.toNat_lt
  by_cases hzero : high = 0
  · -- the bytes behind the first stand for nothing, and there is at least one
    have hpos : 0 < used.length :=
      Nat.lt_of_lt_of_le (List.length_pos_iff.mpr (encodeVarint_ne_nil high)) h.1
    rw [encodeVarint, if_pos (by omega)]
    constructor
    · simp
    · intro hlength
      rw [List.length_singleton, List.length_cons] at hlength
      omega
  · have hfirst : UInt8.ofNat ((b.toNat - 128 + 128 * high) % 128 + 128) = b := by
      rw [show (b.toNat - 128 + 128 * high) % 128 + 128 = b.toNat by omega, UInt8.ofNat_toNat]
    have hrest : (b.toNat - 128 + 128 * high) / 128 = high := by
      omega
    rw [encodeVarint, if_neg (by omega), hfirst, hrest]
    exact (Abbreviates.refl [b]).append h

/-- A number is read from its last byte, or from one before the bytes of a shorter number. -/
theorem decodeVarint_cons_eq_ok {bits n : Nat} {b : UInt8} {input rest : List UInt8}
    (h : decodeVarint bits (b :: input) = .ok (n, rest)) :
    (b.toNat < 128 ∧ b.toNat < 2 ^ bits ∧ n = b.toNat ∧ rest = input) ∨
      (7 < bits ∧ 128 ≤ b.toNat ∧ ∃ high, decodeVarint (bits - 7) input = .ok (high, rest) ∧
        n = b.toNat - 128 + 128 * high) := by
  change (if bits ≤ 7 then if b.toNat < 128 ∧ b.toNat < 2 ^ bits then _ else _
    else if b.toNat < 128 then _ else _) = _ at h
  by_cases hbits : bits ≤ 7
  · rw [if_pos hbits] at h
    by_cases hb : b.toNat < 128 ∧ b.toNat < 2 ^ bits
    · rw [if_pos hb] at h
      cases h
      exact .inl ⟨hb.1, hb.2, rfl, rfl⟩
    · rw [if_neg hb] at h
      cases h
  · rw [if_neg hbits] at h
    by_cases hb : b.toNat < 128
    · rw [if_pos hb] at h
      cases h
      have hpow := Nat.pow_le_pow_right (n := 2) (by decide) (Nat.le_of_lt (Nat.lt_of_not_le hbits))
      exact .inl ⟨hb, by omega, rfl, rfl⟩
    · rw [if_neg hb] at h
      cases hhigh : decodeVarint (bits - 7) input with
      | error e =>
        rw [hhigh] at h
        cases h
      | ok taken =>
        rw [hhigh] at h
        cases h
        exact .inr ⟨Nat.lt_of_not_le hbits, Nat.le_of_not_lt hb, taken.1, rfl, rfl⟩

/-- A number that is read has the bits that it may have. -/
theorem takes_number (bits : Nat) :
    (number bits).Takes fun n used => n < 2 ^ bits ∧ Abbreviates (encodeVarint n) used := by
  intro input
  show ∀ n rest, decodeVarint bits input = .ok (n, rest) → _
  induction input generalizing bits with
  | nil =>
    intro n rest h
    cases h
  | cons b tail ih =>
    intro n rest h
    rcases decodeVarint_cons_eq_ok h with ⟨hlast, hb, rfl, rfl⟩ | ⟨hbits, hb, high, hhigh, rfl⟩
    · refine ⟨[b], rfl, hb, ?_⟩
      rw [encodeVarint, if_pos hlast, UInt8.ofNat_toNat]
      exact Abbreviates.refl [b]
    · obtain ⟨used, rfl, hsize, hused⟩ := ih (bits - 7) high rest hhigh
      refine ⟨b :: used, rfl, ?_, abbreviates_more hb hused⟩
      have hpow : 2 ^ bits = 2 ^ (bits - 7) * 2 ^ 7 := by
        rw [← Nat.pow_add, Nat.sub_add_cancel (Nat.le_of_lt hbits)]
      have hbyte := b.toNat_lt
      omega

theorem takes_uint16 : uint16.Takes fun n used => Abbreviates (encodeVarint n.toNat) used := by
  refine (takes_number 16).map ?_
  rintro n used ⟨hn, hused⟩
  show Abbreviates (encodeVarint (UInt16.ofNat n).toNat) used
  rwa [UInt16.toNat_ofNat', Nat.mod_eq_of_lt hn]

theorem zigzag_unzigzag (n : Nat) : zigzag (unzigzag n) = n := by
  unfold zigzag unzigzag
  split <;> split <;> omega

theorem takes_int16 :
    int16.Takes fun n used => Abbreviates (encodeVarint (zigzag n.toInt)) used := by
  refine (takes_number 16).map ?_
  rintro n used ⟨hn, hused⟩
  have hrange : -2 ^ 15 ≤ unzigzag n ∧ unzigzag n < 2 ^ 15 := by
    unfold unzigzag
    split <;> omega
  show Abbreviates (encodeVarint (zigzag (Int16.ofInt (unzigzag n)).toInt)) used
  rwa [Int16.toInt_ofInt_of_le hrange.1 hrange.2, zigzag_unzigzag]

/-! ### Texts, lists and choices -/

theorem takes_bytes (count : Nat) :
    (bytes count).Takes fun content used => content = used ∧ used.length = count := by
  intro input content rest h
  change (if (input.take count).length < count then _ else _) = _ at h
  split at h
  · cases h
  · rename_i hlength
    cases h
    refine ⟨input.take count, (List.take_append_drop count input).symm, rfl, ?_⟩
    rw [List.length_take] at hlength ⊢
    omega

/-- Bytes that are taken for a text are those of the text. -/
theorem toUTF8_of_fromUTF8? {content : List UInt8} {s : String}
    (h : String.fromUTF8? ⟨content.toArray⟩ = some s) : s.toUTF8.data.toList = content := by
  unfold String.fromUTF8? at h
  split at h
  · obtain rfl := Option.some.inj h
    simp [String.fromUTF8]
  · cases h

theorem takes_text :
    text.Takes fun s used => s.utf8ByteSize < 2 ^ 64 ∧ Abbreviates (encodeText s) used := by
  refine (takes_number 64).bind ?_
  rintro count x ⟨hcount, hx⟩
  refine (takes_bytes count).bind ?_
  rintro content y ⟨rfl, hlength⟩
  split
  · rename_i s hs
    have hcontent := toUTF8_of_fromUTF8? hs
    have hsize : s.utf8ByteSize = content.length := by
      rw [← hcontent]
      simp
    refine Decoder.Takes.pure ⟨by omega, ?_⟩
    rw [List.append_nil, encodeText, hcontent, hsize, hlength]
    exact hx.append (Abbreviates.refl content)
  · exact takes_throw _

/-- Things of which each lengthens what it is encoded in do so together. -/
theorem takes_times {α : Type} {decoder : Decoder α} {fits : α → Prop} {encode : α → List UInt8}
    (h : decoder.Takes fun x used => fits x ∧ Abbreviates (encode x) used) (count : Nat) :
    (times decoder count).Takes fun xs used =>
      xs.length = count ∧ (∀ x ∈ xs, fits x) ∧ Abbreviates (xs.flatMap encode) used := by
  induction count with
  | zero =>
    refine Decoder.Takes.pure ⟨rfl, ?_, Abbreviates.refl []⟩
    simp
  | succ count ih =>
    refine h.bind ?_
    rintro x used ⟨hx, hused⟩
    refine ih.map ?_
    rintro xs others ⟨rfl, hxs, hothers⟩
    exact ⟨rfl, List.forall_mem_cons.mpr ⟨hx, hxs⟩, hused.append hothers⟩

theorem takes_list {α : Type} {decoder : Decoder α} {fits : α → Prop} {encode : α → List UInt8}
    (h : decoder.Takes fun x used => fits x ∧ Abbreviates (encode x) used) :
    (list decoder).Takes fun xs used =>
      (xs.length < 2 ^ 64 ∧ ∀ x ∈ xs, fits x) ∧ Abbreviates (encodeList encode xs) used := by
  refine (takes_number 64).bind ?_
  rintro count used ⟨hcount, hused⟩
  intro input xs rest hxs
  obtain ⟨others, rfl, rfl, hfits, hothers⟩ := takes_times h count input xs rest hxs
  exact ⟨others, rfl, ⟨hcount, hfits⟩, hused.append hothers⟩

/-- A choice lengthens its number and the fields behind it, if each alternative gives values that
have its number and lengthens their fields. -/
theorem takes_choice {α : Type} {alternatives : List (Decoder α)} {fits : α → Prop} {tag : α → Nat}
    {fields : α → List UInt8}
    (h : ∀ (k : Nat) (d : Decoder α), alternatives[k]? = some d →
      d.Takes fun a used => tag a = k ∧ fits a ∧ Abbreviates (fields a) used) :
    (choice alternatives).Takes fun a used =>
      fits a ∧ Abbreviates (encodeVarint (tag a) ++ fields a) used := by
  refine (takes_number 32).bind ?_
  rintro k used ⟨-, hused⟩
  split
  · rename_i d hd
    intro input a rest ha
    obtain ⟨others, rfl, rfl, hfits, hothers⟩ := h k d hd input a rest ha
    exact ⟨others, rfl, hfits, hused.append hothers⟩
  · exact takes_throw _

/-- A choice among values lengthens the number of the value, if the values are numbered in order. -/
theorem takes_alternative {α : Type} {values : List α} {tag : α → Nat}
    (h : values.map tag = List.range values.length) :
    (choice (values.map pure)).Takes fun a used => Abbreviates (encodeVarint (tag a)) used := by
  have hchoice : (choice (values.map pure)).Takes fun a used =>
      True ∧ Abbreviates (encodeVarint (tag a) ++ []) used := by
    refine takes_choice fun k d hd => ?_
    rw [List.getElem?_map] at hd
    obtain ⟨a, ha, rfl⟩ := Option.map_eq_some_iff.mp hd
    have hk : (values.map tag)[k]? = some (tag a) := by
      rw [List.getElem?_map, ha]
      rfl
    rw [h, List.getElem?_range (List.getElem?_eq_some_iff.mp ha).1] at hk
    exact Decoder.Takes.pure ⟨(Option.some.inj hk).symm, trivial, Abbreviates.refl []⟩
  simpa using hchoice

/-! ### Instructions and units -/

theorem takes_segment :
    segment.Takes fun s used => Abbreviates (encodeVarint (segmentTag s)) used :=
  takes_alternative rfl

theorem takes_slot : slot.Takes fun s used => Abbreviates (encodeVarint (slotTag s)) used :=
  takes_alternative rfl

theorem takes_binaryOp :
    binaryOp.Takes fun op used => Abbreviates (encodeVarint (binaryTag op)) used :=
  takes_alternative rfl

theorem takes_unaryOp :
    unaryOp.Takes fun op used => Abbreviates (encodeVarint (unaryTag op)) used :=
  takes_alternative rfl

theorem takes_compareOp :
    compareOp.Takes fun op used => Abbreviates (encodeVarint (compareTag op)) used :=
  takes_alternative rfl

theorem takes_instruction : instruction.Takes fun i used =>
    i.nameSize < 2 ^ 64 ∧ Abbreviates (encodeInstruction i) used := by
  have hnone : 0 < 2 ^ 64 := Nat.two_pow_pos 64
  refine takes_choice fun k d hd => ?_
  -- the alternatives stand in the order of the numbers of the forms
  match k, hd with
  | 0, rfl => exact takes_int16.map fun _ _ h => ⟨rfl, hnone, h⟩
  | 1, rfl =>
    exact takes_segment.bind fun _ _ hs => takes_uint16.map fun _ _ hi => ⟨rfl, hnone, hs.append hi⟩
  | 2, rfl =>
    exact takes_segment.bind fun _ _ hs => takes_uint16.map fun _ _ hi => ⟨rfl, hnone, hs.append hi⟩
  | 3, rfl => exact takes_uint16.map fun _ _ h => ⟨rfl, hnone, h⟩
  | 4, rfl => exact takes_uint16.map fun _ _ h => ⟨rfl, hnone, h⟩
  | 5, rfl => exact takes_slot.map fun _ _ h => ⟨rfl, hnone, h⟩
  | 6, rfl => exact takes_slot.map fun _ _ h => ⟨rfl, hnone, h⟩
  | 7, rfl => exact takes_uint16.map fun _ _ h => ⟨rfl, hnone, h⟩
  | 8, rfl => exact takes_uint16.map fun _ _ h => ⟨rfl, hnone, h⟩
  | 9, rfl => exact takes_binaryOp.map fun _ _ h => ⟨rfl, hnone, h⟩
  | 10, rfl => exact takes_unaryOp.map fun _ _ h => ⟨rfl, hnone, h⟩
  | 11, rfl => exact takes_compareOp.map fun _ _ h => ⟨rfl, hnone, h⟩
  | 12, rfl => exact takes_text.map fun _ _ h => ⟨rfl, h⟩
  | 13, rfl => exact takes_text.map fun _ _ h => ⟨rfl, h⟩
  | 14, rfl => exact takes_text.map fun _ _ h => ⟨rfl, h⟩
  | 15, rfl =>
    exact takes_text.bind fun _ _ hs => takes_uint16.map fun _ _ hn =>
      ⟨rfl, hs.1, hs.2.append hn⟩
  | 16, rfl =>
    exact takes_text.bind fun _ _ hs => takes_uint16.map fun _ _ hn =>
      ⟨rfl, hs.1, hs.2.append hn⟩
  | 17, rfl => exact Decoder.Takes.pure ⟨rfl, hnone, Abbreviates.refl []⟩

theorem takes_line : line.Takes fun l used => l.Fits ∧ Abbreviates (encodeLine l) used := by
  refine (takes_number 64).bind ?_
  rintro n x ⟨hn, hx⟩
  refine takes_instruction.map ?_
  rintro i y ⟨hname, hy⟩
  exact ⟨⟨hn, hname⟩, hx.append hy⟩

theorem takes_unit : unit.Takes fun u used => u.Fits ∧ Abbreviates (encodeUnit u) used := by
  refine takes_text.bind ?_
  rintro name x ⟨hname, hx⟩
  refine (takes_list takes_line).map ?_
  rintro ls y ⟨hlines, hy⟩
  exact ⟨⟨hname, hlines⟩, hx.append hy⟩

theorem takes_units : units.Takes fun us used => Fits us ∧ Abbreviates (encode us) used :=
  takes_list takes_unit

/-! ### What the bytes hold -/

theorem length_encodeVarint_pos (n : Nat) : 0 < (encodeVarint n).length :=
  List.length_pos_iff.mpr (encodeVarint_ne_nil n)

theorem length_encodeText (s : String) : s.utf8ByteSize < (encodeText s).length := by
  have hpos := length_encodeVarint_pos s.utf8ByteSize
  have hcontent : s.toUTF8.data.toList.length = s.utf8ByteSize := by
    simp
  rw [encodeText, List.length_append, hcontent]
  omega

theorem nameSize_le_length_encodeFields (i : Instruction) :
    i.nameSize ≤ (encodeFields i).length := by
  cases i with
  | label name => exact Nat.le_of_lt (length_encodeText name)
  | goto name => exact Nat.le_of_lt (length_encodeText name)
  | ifGoto name => exact Nat.le_of_lt (length_encodeText name)
  | function name n =>
    rw [encodeFields, List.length_append]
    exact Nat.le_add_right_of_le (Nat.le_of_lt (length_encodeText name))
  | call name n =>
    rw [encodeFields, List.length_append]
    exact Nat.le_add_right_of_le (Nat.le_of_lt (length_encodeText name))
  | _ => exact Nat.zero_le _

/-- A line takes more bytes than its name has. -/
theorem nameSize_lt_length_encodeLine (l : SourceLine) :
    l.instruction.nameSize < (encodeLine l).length := by
  have hnumber := length_encodeVarint_pos l.number
  have hfields := nameSize_le_length_encodeFields l.instruction
  rw [encodeLine, encodeInstruction, List.length_append, List.length_append]
  omega

/-- A list takes more bytes than it has members and they count for, if each of them takes more than
it counts for. -/
theorem sum_lt_length_encodeList {α : Type} {encode : α → List UInt8} {size : α → Nat}
    (h : ∀ x, size x < (encode x).length) (xs : List α) :
    xs.length + (xs.map size).sum < (encodeList encode xs).length := by
  have hmembers : xs.length + (xs.map size).sum ≤ (xs.flatMap encode).length := by
    induction xs with
    | nil => exact Nat.le_refl 0
    | cons x rest ih =>
      have hx := h x
      simp only [List.length_cons, List.map_cons, List.sum_cons, List.flatMap_cons,
        List.length_append]
      omega
  have hlength := length_encodeVarint_pos xs.length
  rw [encodeList, List.length_append]
  omega

/-- A unit takes more bytes than there are lines and bytes of names in it. -/
theorem extent_lt_length_encodeUnit (u : SourceUnit) :
    u.lines.length + u.nameSize < (encodeUnit u).length := by
  have hname := length_encodeText u.name
  have hlines := sum_lt_length_encodeList nameSize_lt_length_encodeLine u.lines
  rw [encodeUnit, List.length_append, SourceUnit.nameSize]
  omega

/-! ### Bundles -/

theorem decode_eq_ok_iff {input : List UInt8} {us : List SourceUnit} :
    decode input = .ok us ↔ ∃ rest, units input = .ok (us, rest) := by
  unfold decode
  cases units input with
  | error e => simp [Except.map]
  | ok taken => simp [Except.map, Prod.ext_iff]

/-- Units that are decoded from bytes are encoded in at most as many as were taken for them, and in
as many only if in the same. There are no more units, lines and bytes of names than there were bytes.
The units are decoded from the bytes that they are encoded in, and from no others that are as few. -/
theorem encode_shortest {input : List UInt8} {us : List SourceUnit} (h : decode input = .ok us) :
    (∃ used rest, units input = .ok (us, rest) ∧ input = used ++ rest ∧
      (encode us).length ≤ used.length ∧
      ((encode us).length = used.length ↔ encode us = used)) ∧
    us.length + (us.map fun u => u.lines.length + u.nameSize).sum ≤ input.length ∧
    decode (encode us) = .ok us ∧
    ∀ other, decode other = .ok us → other ≠ encode us → (encode us).length < other.length := by
  have hshort : ∀ other, decode other = .ok us → ∃ used rest, units other = .ok (us, rest) ∧
      other = used ++ rest ∧ Fits us ∧ Abbreviates (encode us) used := by
    intro other hother
    obtain ⟨rest, hrest⟩ := decode_eq_ok_iff.mp hother
    obtain ⟨used, hused, hfits, habbreviates⟩ := takes_units other us rest hrest
    exact ⟨used, rest, hrest, hused, hfits, habbreviates⟩
  obtain ⟨used, rest, hrest, rfl, hfits, hle, heq⟩ := hshort input h
  refine ⟨⟨used, rest, hrest, rfl, hle, heq, congrArg List.length⟩, ?_, ?_, ?_⟩
  · have hextent : us.length + (us.map fun u => u.lines.length + u.nameSize).sum <
        (encode us).length := sum_lt_length_encodeList extent_lt_length_encodeUnit us
    rw [List.length_append]
    omega
  · have hwhole := (reads_units hfits).whole []
    rw [List.append_nil] at hwhole
    exact decode_eq_ok_iff.mpr ⟨[], hwhole⟩
  · intro other hother hne
    obtain ⟨taken, tail, -, rfl, -, hle', heq'⟩ := hshort other hother
    by_contra hlong
    rw [List.length_append] at hlong
    -- other bytes that are as few are all taken, and then they are the same
    have htail : tail = [] := List.length_eq_zero_iff.mp (by omega)
    have htaken : encode us = taken := heq' (by omega)
    rw [htail, List.append_nil] at hne
    exact hne htaken.symm

/-- Bytes in which the number of units and the number of the line are written longer than need be,
with a byte behind them that is not read. -/
def paddedBytes : List UInt8 :=
  [0x81, 0x80, 0x00, 0x01, 0x41, 0x01, 0x85, 0x00, 0x11, 0xFF]

theorem encode_shortest_padded :
    decode paddedBytes = .ok [⟨"A", [⟨5, .return⟩]⟩] ∧
      decode (encode [⟨"A", [⟨5, .return⟩]⟩]) = .ok [⟨"A", [⟨5, .return⟩]⟩] ∧
      (encode [⟨"A", [⟨5, .return⟩]⟩]).length < paddedBytes.length := by
  have hpadded : decode paddedBytes = .ok [⟨"A", [⟨5, .return⟩]⟩] := by
    decide +kernel
  have hencode : paddedBytes ≠ encode [⟨"A", [⟨5, .return⟩]⟩] := by
    decide +kernel
  obtain ⟨-, -, hread, hshort⟩ := encode_shortest hpadded
  exact ⟨hpadded, hread, hshort paddedBytes hpadded hencode⟩

end Bundle

end HackVm
