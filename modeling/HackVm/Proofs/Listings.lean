/-
Listings of units.

Names, indices and line numbers of any kind can be told from a listing. The number of a line ends at
the first bracket behind it, and zeros in front do not change it (`zeroPadded_injective`). The field
for the kind of an instruction has one width, so what is left is the text of the instruction. Its
opcode ends at the first space and tells how many operands follow. Only the first of them may hold
spaces itself, so operands are cut apart at the last space (`operands_eq`), and they write no other
instruction (`instructionOf?_tokens`).

* **`listing_lossless`** — two units have the same listing without colour if and only if they are
  the same, and the listing of a legal unit in colour is the one without if the escape sequences
  are deleted.
-/
import HackVm.SourceUnit.Listing
import HackVm.Proofs.Blocks
import HackVm.Proofs.LineReading

namespace HackVm

open Machine Text

/-! ### Cutting -/

/-- A text is cut in one way only at the first place of a character. -/
theorem eq_of_append_cons {c : Char} {left left' right right' : List Char} (h : c ∉ left)
    (h' : c ∉ left') (heq : left ++ c :: right = left' ++ c :: right') :
    left = left' ∧ right = right' := by
  have hcut := congrArg (cutAt c) heq
  rw [cutAt_append h, cutAt_append h'] at hcut
  exact Prod.mk.inj (Option.some.inj hcut)

/-- And in one way only at the last place. -/
theorem eq_of_append_cons_last {c : Char} {left left' right right' : List Char} (h : c ∉ right)
    (h' : c ∉ right') (heq : left ++ c :: right = left' ++ c :: right') :
    left = left' ∧ right = right' := by
  have hreverse := congrArg List.reverse heq
  simp only [List.reverse_append, List.reverse_cons, List.append_assoc, List.singleton_append]
    at hreverse
  obtain ⟨hright, hleft⟩ := eq_of_append_cons (by simpa using h) (by simpa using h') hreverse
  exact ⟨List.reverse_inj.mp hleft, List.reverse_inj.mp hright⟩

/-! ### Operands -/

theorem not_mem_space_of_isWord {text : String} (h : IsWord text) : ' ' ∉ text.toList := by
  intro hmem
  exact absurd (h.2 ' ' hmem) (by decide)

/-- The number of operands of an opcode. -/
def arity (opcode : String) : Nat :=
  if opcode ∈ ["push", "pop", "function", "call"] then 2
  else if opcode ∈ ["label", "goto", "if-goto"] then 1
  else 0

theorem length_operands (i : Instruction) : i.operands.length = arity i.opcode := by
  cases i with
  | binary op => cases op <;> rfl
  | unary op => cases op <;> rfl
  | compare op => cases op <;> rfl
  | _ => rfl

/-- The second of two operands is a number. -/
theorem not_mem_space_of_operands {i : Instruction} {first second : String}
    (h : i.operands = [first, second]) : ' ' ∉ second.toList := by
  have hnat : ∀ n : Nat, ' ' ∉ (toString n).toList :=
    fun n => not_mem_space_of_isWord (isWord_toString_nat n)
  cases i <;> cases h
  case pushConstant => exact not_mem_space_of_isWord (isWord_toString_int _)
  all_goals exact hnat _

theorem intercalate_append_space (first : List Char) (others : List (List Char)) :
    [' '].intercalate (first :: others) ++ [' '] =
      first ++ ' ' :: others.flatMap (· ++ [' ']) := by
  induction others generalizing first with
  | nil => simp
  | cons second rest ih =>
    rw [List.intercalate_cons_cons, List.append_assoc, ih, List.flatMap_cons]
    simp

/-- The text of an instruction tells its opcode and its operands. -/
theorem operands_eq {i j : Instruction} (h : i.text = j.text) :
    i.opcode = j.opcode ∧ i.operands = j.operands := by
  have hspace : ∀ i : Instruction, ' ' ∉ i.opcode.toList :=
    fun i => not_mem_space_of_isWord (isWord_opcode i)
  have htext := congrArg (fun text : String => text.toList ++ [' ']) h
  simp only [toList_text, List.map_cons, intercalate_append_space] at htext
  obtain ⟨hopcode, hbehind⟩ := eq_of_append_cons (hspace i) (hspace j) htext
  have hopcode := String.toList_inj.mp hopcode
  refine ⟨hopcode, ?_⟩
  have hi := length_operands i
  have hj := length_operands j
  rw [← hopcode] at hj
  have harity : arity i.opcode = 0 ∨ arity i.opcode = 1 ∨ arity i.opcode = 2 := by
    unfold arity
    split
    · simp
    · split <;> simp
  rcases harity with hnone | hone | htwo
  · rw [List.length_eq_zero_iff.mp (hi.trans hnone), List.length_eq_zero_iff.mp (hj.trans hnone)]
  · obtain ⟨a, ha⟩ := List.length_eq_one_iff.mp (hi.trans hone)
    obtain ⟨b, hb⟩ := List.length_eq_one_iff.mp (hj.trans hone)
    simp only [ha, hb, List.map_cons, List.map_nil, List.flatMap_cons, List.flatMap_nil,
      List.append_nil, List.append_cancel_right_eq] at hbehind
    rw [ha, hb, String.toList_inj.mp hbehind]
  · obtain ⟨a, a', ha⟩ := List.length_eq_two.mp (hi.trans htwo)
    obtain ⟨b, b', hb⟩ := List.length_eq_two.mp (hj.trans htwo)
    simp only [ha, hb, List.map_cons, List.map_nil, List.flatMap_cons, List.flatMap_nil,
      List.append_nil, ← List.append_assoc, List.append_cancel_right_eq] at hbehind
    rw [List.append_assoc, List.append_assoc] at hbehind
    obtain ⟨hfirst, hsecond⟩ := eq_of_append_cons_last (not_mem_space_of_operands ha)
      (not_mem_space_of_operands hb) hbehind
    rw [ha, hb, String.toList_inj.mp hfirst, String.toList_inj.mp hsecond]

/-- The place that a word and an index write, whatever the index is. -/
def placeOf? (word index : String) : Option Place :=
  (readIndex index).toOption.bind fun n =>
    match word with
    | "local" => some (.based .local n)
    | "argument" => some (.based .argument n)
    | "this" => some (.based .this n)
    | "that" => some (.based .that n)
    | "static" => some (.static n)
    | "temp" => some (.temp n)
    | "pointer" => (PointerSlot.ofIndex? n).map .pointer
    | _ => none

/-- The instructions without operands. -/
def bareInstructions : List Instruction :=
  [.binary .add, .binary .sub, .binary .and, .binary .or, .unary .neg, .unary .not, .compare .eq,
    .compare .gt, .compare .lt, .return]

/-- The instruction that an opcode and operands write, whatever the names and indices are. -/
def instructionOf? (opcode : String) (operands : List String) : Option Instruction :=
  match opcode, operands with
  | "push", ["constant", n] => (readConstant n).toOption.map .pushConstant
  | "push", [word, n] => (placeOf? word n).map Place.push
  | "pop", [word, n] => (placeOf? word n).map Place.pop
  | "label", [name] => some (.label name)
  | "goto", [name] => some (.goto name)
  | "if-goto", [name] => some (.ifGoto name)
  | "function", [name, n] => (readIndex n).toOption.map (.function name)
  | "call", [name, n] => (readIndex n).toOption.map (.call name)
  | _, _ => bareInstructions.find? fun i => i.opcode = opcode

theorem placeOf?_operands (place : Place) :
    ∃ word index, place.operands = [word, index] ∧ word ≠ "constant" ∧
      placeOf? word index = some place := by
  cases place with
  | based segment n =>
    refine ⟨segment.keyword, toString n.toNat, rfl, by cases segment <;> decide, ?_⟩
    rw [placeOf?, readIndex_toString]
    cases segment <;> rfl
  | static n =>
    refine ⟨"static", toString n.toNat, rfl, by decide, ?_⟩
    rw [placeOf?, readIndex_toString]
    rfl
  | pointer slot =>
    refine ⟨"pointer", toString slot.index.toNat, rfl, by decide, ?_⟩
    rw [placeOf?, readIndex_toString]
    cases slot <;> rfl
  | temp n =>
    refine ⟨"temp", toString n.toNat, rfl, by decide, ?_⟩
    rw [placeOf?, readIndex_toString]
    rfl

theorem instructionOf?_push (place : Place) :
    instructionOf? "push" place.operands = some place.push := by
  obtain ⟨word, index, hoperands, hword, hplace⟩ := placeOf?_operands place
  rw [hoperands, instructionOf?]
  · rw [hplace, Option.map_some]
  · exact hword

theorem instructionOf?_pop (place : Place) :
    instructionOf? "pop" place.operands = some place.pop := by
  obtain ⟨word, index, hoperands, -, hplace⟩ := placeOf?_operands place
  rw [hoperands, instructionOf?, hplace, Option.map_some]

/-- An instruction can be told from its opcode and its operands. -/
theorem instructionOf?_tokens (i : Instruction) : instructionOf? i.opcode i.operands = some i := by
  cases i with
  | pushConstant n =>
    rw [Instruction.opcode, Instruction.operands, instructionOf?, readConstant_toString]
    rfl
  | pushSegment segment n => exact instructionOf?_push (.based segment n)
  | pushStatic n => exact instructionOf?_push (.static n)
  | pushPointer slot => exact instructionOf?_push (.pointer slot)
  | pushTemp n => exact instructionOf?_push (.temp n)
  | popSegment segment n => exact instructionOf?_pop (.based segment n)
  | popStatic n => exact instructionOf?_pop (.static n)
  | popPointer slot => exact instructionOf?_pop (.pointer slot)
  | popTemp n => exact instructionOf?_pop (.temp n)
  | label name => rfl
  | goto name => rfl
  | ifGoto name => rfl
  | function name n =>
    rw [Instruction.opcode, Instruction.operands, instructionOf?, readIndex_toString]
    rfl
  | call name n =>
    rw [Instruction.opcode, Instruction.operands, instructionOf?, readIndex_toString]
    rfl
  | binary op => cases op <;> decide
  | unary op => cases op <;> decide
  | compare op => cases op <;> decide
  | «return» => decide

/-- No two instructions have the same text, whatever their names and indices are. -/
theorem Instruction.text_injective {i j : Instruction} (h : i.text = j.text) : i = j := by
  obtain ⟨hopcode, hoperands⟩ := operands_eq h
  have hj := instructionOf?_tokens j
  rw [← hopcode, ← hoperands, instructionOf?_tokens] at hj
  exact Option.some.inj hj

/-! ### Lines -/

theorem toList_zeroPadded (width n : Nat) :
    (zeroPadded width n).toList =
      List.replicate (width - (Nat.toDigits 10 n).length) '0' ++ Nat.toDigits 10 n :=
  String.toList_ofList

/-- Zeros in front of a number do not change it. -/
theorem ofDigitChars_zeroPadded (width n : Nat) :
    Nat.ofDigitChars 10 (zeroPadded width n).toList 0 = n := by
  have hzeros : ∀ k, Nat.ofDigitChars 10 (List.replicate k '0') 0 = 0 := by
    intro k
    induction k with
    | zero => rfl
    | succ k ih => rw [List.replicate_succ, Nat.ofDigitChars_cons]; exact ih
  rw [toList_zeroPadded, Nat.ofDigitChars_append, hzeros,
    Nat.ofDigitChars_toDigits (by decide) (by decide)]

theorem zeroPadded_injective {width m n : Nat} (h : zeroPadded width m = zeroPadded width n) :
    m = n := by
  rw [← ofDigitChars_zeroPadded width m, h, ofDigitChars_zeroPadded]

theorem isDigit_of_mem_zeroPadded {width n : Nat} {c : Char}
    (h : c ∈ (zeroPadded width n).toList) : c.isDigit := by
  rw [toList_zeroPadded, List.mem_append] at h
  rcases h with h | h
  · rw [(List.mem_replicate.mp h).2]
    rfl
  · exact Nat.isDigit_of_mem_toDigits (by decide) (by decide) h

/-- The field for the kind is as wide for every instruction. -/
theorem length_kind (i : Instruction) : (leftAligned 8 i.kind).toList.length = 8 := by
  have hkind : i.kind.toList.length ≤ 8 := by
    cases i <;> dsimp only [Instruction.kind] <;> decide
  rw [leftAligned, String.toList_ofList, List.length_rightpad, Nat.max_eq_left hkind]

/-- What stands behind the number of a line. -/
def SourceLine.entry (l : SourceLine) : String :=
  leftAligned 8 l.instruction.kind ++ " " ++ l.instruction.text

theorem SourceLine.listing_eq (color : Bool) (l : SourceLine) :
    l.listing color =
      "[" ++ zeroPadded 4 l.number ++ "] " ++ l.instruction.style.paint color l.entry := rfl

theorem SourceLine.listing_injective {l m : SourceLine} (h : l.listing false = m.listing false) :
    l = m := by
  have hlist : ∀ l : SourceLine, (l.listing false).toList =
      '[' :: ((zeroPadded 4 l.number).toList ++ ']' :: ' ' ::
        ((leftAligned 8 l.instruction.kind).toList ++ ' ' :: l.instruction.text.toList)) := by
    intro l
    rw [SourceLine.listing_eq]
    simp [Style.paint, SourceLine.entry]
  have hbracket : ∀ n : Nat, ']' ∉ (zeroPadded 4 n).toList :=
    fun n hmem => absurd (isDigit_of_mem_zeroPadded hmem) (by decide)
  have hlines := congrArg String.toList h
  rw [hlist, hlist] at hlines
  obtain ⟨hnumber, hentry⟩ := eq_of_append_cons (hbracket l.number) (hbracket m.number)
    (List.cons.inj hlines).2
  obtain ⟨-, htext⟩ := List.append_inj (List.cons.inj hentry).2
    ((length_kind l.instruction).trans (length_kind m.instruction).symm)
  have hinstruction := Instruction.text_injective (String.toList_inj.mp (List.cons.inj htext).2)
  have hnumber := zeroPadded_injective (String.toList_inj.mp hnumber)
  cases l
  cases m
  simp only at hnumber hinstruction
  rw [hnumber, hinstruction]

/-- The heading of a listing. -/
def SourceUnit.heading (u : SourceUnit) : String :=
  "── " ++ u.name ++ " (" ++ toString u.lines.length ++ " instructions)"

theorem SourceUnit.listing_eq (color : Bool) (u : SourceUnit) :
    u.listing color =
      Style.dim.paint color u.heading :: u.lines.map (SourceLine.listing color) := rfl

/-- No two units have the same listing without colour. -/
theorem SourceUnit.listing_injective {u v : SourceUnit} (h : u.listing false = v.listing false) :
    u = v := by
  rw [SourceUnit.listing_eq, SourceUnit.listing_eq] at h
  obtain ⟨hheading, hlines⟩ := List.cons.inj h
  have hlines : u.lines = v.lines :=
    List.map_injective_iff.mpr (fun l m => SourceLine.listing_injective) hlines
  have hname : u.name = v.name := by
    -- the lines are as many, so only the names may differ
    have hchars := congrArg String.toList hheading
    simpa [Style.paint, SourceUnit.heading, hlines, String.toList_inj] using hchars
  cases u
  cases v
  simp only at hlines hname
  rw [hlines, hname]

/-! ### Colour -/

theorem length_lt_of_cutAt {c : Char} {text left right : List Char}
    (h : cutAt c text = some (left, right)) : right.length < text.length := by
  unfold cutAt at h
  split at h
  · cases h
  · rename_i d rest hdrop
    cases h
    have hsuffix := (List.dropWhile_suffix (l := text) (· ≠ c)).length_le
    rw [hdrop, List.length_cons] at hsuffix
    exact hsuffix

/-- A text without its escape sequences: an escape character, a bracket, and what follows as far as
the next `m`. -/
def withoutEscapes : List Char → List Char
  | '\x1b' :: '[' :: rest =>
    match h : cutAt 'm' rest with
    | some (_, behind) =>
      have : behind.length < rest.length := length_lt_of_cutAt h
      withoutEscapes behind
    | none => '\x1b' :: withoutEscapes ('[' :: rest)
  | c :: rest => c :: withoutEscapes rest
  | [] => []
termination_by text => text.length

theorem withoutEscapes_sequence (parameters rest : List Char) (h : 'm' ∉ parameters) :
    withoutEscapes ('\x1b' :: '[' :: (parameters ++ 'm' :: rest)) = withoutEscapes rest := by
  rw [withoutEscapes]
  split
  · rename_i behind hcut
    rw [cutAt_append h] at hcut
    exact congrArg withoutEscapes (Prod.mk.inj (Option.some.inj hcut)).2.symm
  · rename_i hcut
    rw [cutAt_append h] at hcut
    cases hcut

theorem withoutEscapes_append {front : List Char} (h : '\x1b' ∉ front) (rest : List Char) :
    withoutEscapes (front ++ rest) = front ++ withoutEscapes rest := by
  induction front with
  | nil => rfl
  | cons c others ih =>
    rw [List.mem_cons, not_or] at h
    obtain ⟨hc, hothers⟩ := h
    rw [List.cons_append, withoutEscapes, ih hothers, List.cons_append]
    rintro _ rfl
    exact absurd rfl hc

/-- What switches a style on is an escape sequence, or nothing. -/
theorem withoutEscapes_code (style : Style) (rest : List Char) :
    withoutEscapes (style.code.toList ++ rest) = withoutEscapes rest := by
  cases style with
  | plain => rfl
  | reset => exact withoutEscapes_sequence ['0'] rest (by decide)
  | dim => exact withoutEscapes_sequence ['2'] rest (by decide)
  | green => exact withoutEscapes_sequence ['3', '2'] rest (by decide)
  | yellow => exact withoutEscapes_sequence ['3', '3'] rest (by decide)
  | magenta => exact withoutEscapes_sequence ['3', '5'] rest (by decide)
  | cyan => exact withoutEscapes_sequence ['3', '6'] rest (by decide)
  | boldRed => exact withoutEscapes_sequence ['1', ';', '3', '1'] rest (by decide)
  | boldYellow => exact withoutEscapes_sequence ['1', ';', '3', '3'] rest (by decide)

/-- A line in which a style is switched on somewhere, without its escape sequences. -/
theorem withoutEscapes_paint {front text : String} (hfront : '\x1b' ∉ front.toList)
    (htext : '\x1b' ∉ text.toList) (style : Style) :
    withoutEscapes (front ++ style.paint true text).toList =
      (front ++ style.paint false text).toList := by
  have hreset : withoutEscapes Style.reset.code.toList = [] := by
    rw [← List.append_nil Style.reset.code.toList, withoutEscapes_code, withoutEscapes]
  simp only [Style.paint, if_true, Bool.false_eq_true, if_false, String.toList_append,
    List.append_assoc]
  rw [withoutEscapes_append hfront, withoutEscapes_code, withoutEscapes_append htext, hreset,
    List.append_nil]

/-! ### Texts without escape characters -/

theorem escape_not_mem_symbol {name : String} (h : isSymbol name) : '\x1b' ∉ name.toList :=
  fun hmem => absurd (isSymbolChar_of_mem h hmem) (by decide)

theorem escape_not_mem_nat (n : Nat) : '\x1b' ∉ (toString n).toList :=
  fun hmem => absurd (isDigit_of_mem_toString hmem) (by decide)

theorem escape_not_mem_int (n : Int) : '\x1b' ∉ (toString n).toList := by
  cases n with
  | ofNat m => exact escape_not_mem_nat m
  | negSucc m =>
    rw [toList_toString_negSucc]
    exact List.not_mem_cons_of_ne_of_not_mem (by decide) (escape_not_mem_nat _)

theorem escape_not_mem_opcode (i : Instruction) : '\x1b' ∉ i.opcode.toList := by
  have hall : ∀ opcode ∈ opcodes, '\x1b' ∉ opcode.toList := by decide
  exact hall _ (opcode_mem_opcodes i)

theorem escape_not_mem_operand {i : Instruction} (h : i.check = .ok ()) {operand : String}
    (hmem : operand ∈ i.operands) : '\x1b' ∉ operand.toList := by
  have hword : ∀ word ∈ "constant" :: placeWords, '\x1b' ∉ word.toList := by
    decide
  rcases mem_operands_cases h hmem with hplace | ⟨n, rfl⟩ | hsymbol
  · exact hword operand hplace
  · exact escape_not_mem_int n
  · exact escape_not_mem_symbol hsymbol

theorem escape_not_mem_text {i : Instruction} (h : i.check = .ok ()) :
    '\x1b' ∉ i.text.toList := by
  intro hmem
  rw [toList_text] at hmem
  rcases mem_intercalate hmem with hspace | ⟨piece, hpiece, hmem⟩
  · exact absurd hspace (by decide)
  · obtain ⟨token, htoken, rfl⟩ := List.mem_map.mp hpiece
    rcases List.mem_cons.mp htoken with rfl | hoperand
    · exact escape_not_mem_opcode i hmem
    · exact escape_not_mem_operand h hoperand hmem

/-- The line of an instruction that passes the check, in colour and without. -/
theorem withoutEscapes_line {l : SourceLine} (h : l.instruction.check = .ok ()) :
    withoutEscapes (l.listing true).toList = (l.listing false).toList := by
  have hnumber : '\x1b' ∉ (zeroPadded 4 l.number).toList :=
    fun hmem => absurd (isDigit_of_mem_zeroPadded hmem) (by decide)
  have hkind : '\x1b' ∉ (leftAligned 8 l.instruction.kind).toList := by
    cases l.instruction <;> dsimp only [Instruction.kind] <;> decide
  have hentry : '\x1b' ∉ l.entry.toList := by
    simp [SourceLine.entry, hkind, escape_not_mem_text h]
  rw [SourceLine.listing_eq, SourceLine.listing_eq]
  exact withoutEscapes_paint (by simp [hnumber]) hentry _

/-- The heading of a unit whose name is a symbol, in colour and without. -/
theorem withoutEscapes_heading {u : SourceUnit} (h : isSymbol u.name) :
    withoutEscapes (Style.dim.paint true u.heading).toList =
      (Style.dim.paint false u.heading).toList := by
  have hcount : '\x1b' ∉ Nat.toDigits 10 u.lines.length := by
    simpa using escape_not_mem_nat u.lines.length
  have hheading : '\x1b' ∉ u.heading.toList := by
    simp [SourceUnit.heading, escape_not_mem_symbol h, hcount]
  simpa using withoutEscapes_paint (by decide : '\x1b' ∉ "".toList) hheading Style.dim

/-- Two units have the same listing without colour if and only if they are the same, whatever their
names, line numbers and instructions are. The listing of a legal unit in colour is the one without
if the escape sequences are deleted. -/
theorem listing_lossless :
    (∀ u v : SourceUnit, u.listing false = v.listing false ↔ u = v) ∧
      ∀ u : SourceUnit, u.Legal →
        (u.listing true).map (fun line => String.ofList (withoutEscapes line.toList)) =
          u.listing false := by
  refine ⟨fun u v => ⟨SourceUnit.listing_injective, congrArg _⟩, ?_⟩
  rintro u ⟨hname, hchecked⟩
  rw [SourceUnit.listing_eq, SourceUnit.listing_eq, List.map_cons, List.map_map,
    withoutEscapes_heading hname, String.ofList_toList]
  refine congrArg _ (List.map_congr_left ?_)
  intro l hl
  have hcheck := hchecked l.instruction (List.mem_map_of_mem hl)
  rw [Function.comp_apply, withoutEscapes_line hcheck, String.ofList_toList]

/-- A number with five digits takes a wider field, and a space in the name of a function does not
make it another function. -/
theorem listing_lossless_wide :
    (SourceUnit.mk "Main" [⟨7, .pushConstant (-5)⟩, ⟨12345, .ifGoto "a.b"⟩]).Legal ∧
      ((SourceUnit.mk "Main" [⟨7, .pushConstant (-5)⟩, ⟨12345, .ifGoto "a.b"⟩]).listing true).map
          (fun line => String.ofList (withoutEscapes line.toList)) =
        ["── Main (2 instructions)", "[0007] PUSH     push constant -5",
          "[12345] BRANCH   if-goto a.b"] ∧
      (SourceUnit.mk "Main" [⟨7, .call "f 1" 2⟩]).listing false ≠
        (SourceUnit.mk "Main" [⟨7, .call "f" 12⟩]).listing false := by
  obtain ⟨hinjective, hcolour⟩ := listing_lossless
  have hlegal : (SourceUnit.mk "Main" [⟨7, .pushConstant (-5)⟩, ⟨12345, .ifGoto "a.b"⟩]).Legal := by
    simp only [SourceUnit.Legal]
    decide
  refine ⟨hlegal, (hcolour _ hlegal).trans (by decide +kernel), ?_⟩
  intro hsame
  exact absurd ((hinjective _ _).mp hsame) (by decide)

end HackVm
