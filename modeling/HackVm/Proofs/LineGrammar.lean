/-
The grammar of source lines.

What a line holds is decided by its tokens, the words before its comment (`IsTokens`). Those that
stand for an instruction are given form by form (`Denotes`): numbers are decimal digits with
their value (`IsNumeral`, `IsInteger`), a place is a segment word in either case with an index
(`Names`), and names are symbols (`IsName`). Each reader is sound and complete for its part of the
grammar, and so is the reading of lines:

* **`readLine_text_iff`** — an instruction is read from its text if and only if it passes the check
  of instructions that come from elsewhere, and these are the ones that some line holds;
* **`readLine_iff`** — which lines are blank, hold an instruction, hold a word that is no opcode,
  and which are refused, with the code of the line.
-/
import HackVm.Proofs.LineReading

namespace HackVm

open Text

/-! ### The grammar -/

/-- A line, and the part of it before its comment. The comment begins at the first two slashes that
stand side by side, if any do. -/
inductive IsCode : List Char → List Char → Prop where
  | whole {line : List Char} (h : ¬ ['/', '/'] <:+: line) : IsCode line line
  | cut {code : List Char} (h : ¬ ['/', '/'] <:+: code ++ ['/']) (after : List Char) :
      IsCode (code ++ '/' :: '/' :: after) code

/-- A text, and the longest runs of characters in it that are not blank. -/
inductive AreWords : List Char → List (List Char) → Prop where
  | nil : AreWords [] []
  | blank {c : Char} {text : List Char} {ws : List (List Char)} (hc : isBlank c)
      (h : AreWords text ws) : AreWords (c :: text) ws
  | word {w text : List Char} {ws : List (List Char)} (hne : w ≠ []) (hw : ∀ c ∈ w, ¬ isBlank c)
      (hend : ∀ c ∈ text.head?, isBlank c) (h : AreWords text ws) : AreWords (w ++ text) (w :: ws)

/-- A line, and its tokens. -/
def IsTokens (line : String) (ts : List String) : Prop :=
  ∃ code ws, IsCode line.toList code ∧ AreWords code ws ∧ ws.map String.ofList = ts

/-- The words of a line before its comment. -/
def tokens (line : String) : List String :=
  (words (beforeSlashes line.toList)).map String.ofList

/-- A text of decimal digits, and its number. -/
structure IsNumeral (text : String) (n : Nat) : Prop where
  digits : IsDecimal text
  value : Nat.ofDigitChars 10 text.toList 0 = n

/-- A text of decimal digits behind at most one minus sign, and its number. -/
inductive IsInteger : String → Int → Prop where
  | plain {text : String} {n : Nat} (h : IsNumeral text n) : IsInteger text n
  | minus {text : String} {n : Nat} (h : IsNumeral text n) : IsInteger ("-" ++ text) (-n)

/-- A text of letters, digits, `_`, `.` and `:` that is not empty and begins with no digit. -/
structure IsName (text : String) : Prop where
  first : ∃ c, text.toList.head? = some c ∧ ¬ c.isDigit
  chars : ∀ c ∈ text.toList, c.isAlphanum ∨ c ∈ ['_', '.', ':']

/-- A segment word and an index, and the place that they name. -/
inductive Names (word operand : String) : Place → Prop where
  | based {segment : Segment} {i : UInt16} (hword : word.toLower = segment.keyword)
      (hi : IsNumeral operand i.toNat) : Names word operand (.based segment i)
  | static {i : UInt16} (hword : word.toLower = "static") (hi : IsNumeral operand i.toNat) :
      Names word operand (.static i)
  | temp {i : UInt16} (hword : word.toLower = "temp") (hi : IsNumeral operand i.toNat)
      (hle : i.toNat ≤ 7) : Names word operand (.temp i)
  | pointer {slot : PointerSlot} (hword : word.toLower = "pointer")
      (hi : IsNumeral operand slot.index.toNat) : Names word operand (.pointer slot)

/-- Tokens, and the instruction that they stand for. -/
inductive Denotes : List String → Instruction → Prop where
  | constant {word operand : String} {n : Int16} (hword : word.toLower = "constant")
      (hn : IsInteger operand n.toInt) : Denotes ["push", word, operand] (.pushConstant n)
  | push {word operand : String} {place : Place} (h : Names word operand place) :
      Denotes ["push", word, operand] place.push
  | pop {word operand : String} {place : Place} (h : Names word operand place) :
      Denotes ["pop", word, operand] place.pop
  | binary (op : BinaryOp) : Denotes [op.keyword] (.binary op)
  | unary (op : UnaryOp) : Denotes [op.keyword] (.unary op)
  | compare (op : CompareOp) : Denotes [op.keyword] (.compare op)
  | label {name : String} (h : IsName name) : Denotes ["label", name] (.label name)
  | goto {name : String} (h : IsName name) : Denotes ["goto", name] (.goto name)
  | ifGoto {name : String} (h : IsName name) : Denotes ["if-goto", name] (.ifGoto name)
  | function {name operand : String} {n : UInt16} (h : IsName name)
      (hn : IsNumeral operand n.toNat) : Denotes ["function", name, operand] (.function name n)
  | call {name operand : String} {n : UInt16} (h : IsName name)
      (hn : IsNumeral operand n.toNat) : Denotes ["call", name, operand] (.call name n)
  | return : Denotes ["return"] .return

/-! ### Numbers and names -/

theorem allDigits_iff {text : String} :
    (text.toList.isEmpty || !allDigits text.toList) = false ↔ IsDecimal text := by
  rw [Bool.or_eq_false_iff, Bool.not_eq_false', allDigits, List.isEmpty_eq_false_iff,
    List.all_eq_true]
  exact Iff.rfl

theorem readNat_eq_some_iff {text : String} {n : Nat} :
    readNat text.toList = some n ↔ IsNumeral text n := by
  unfold readNat
  by_cases h : IsDecimal text
  · rw [allDigits_iff.mpr h, if_neg Bool.false_ne_true, Option.some_inj]
    exact ⟨fun hn => ⟨h, hn⟩, fun hn => hn.value⟩
  · have hnot : (text.toList.isEmpty || !allDigits text.toList) = true :=
      Bool.eq_true_of_not_eq_false fun hdigits => h (allDigits_iff.mp hdigits)
    rw [if_pos hnot]
    exact ⟨fun hn => absurd hn (by simp), fun hn => absurd hn.digits h⟩

theorem readUInt16_eq_some_iff {text : String} {n : UInt16} :
    readUInt16 text.toList = some n ↔ IsNumeral text n.toNat := by
  rw [readUInt16, ← readNat_eq_some_iff, Option.bind_eq_some_iff]
  constructor
  · rintro ⟨m, hm, hn⟩
    split at hn
    · rename_i hlt
      rw [hm, ← Option.some.inj hn, UInt16.toNat_ofNat_of_lt' hlt]
    · cases hn
  · intro h
    exact ⟨n.toNat, h, by rw [if_pos n.toNat_lt, UInt16.ofNat_toNat]⟩

theorem readIndex_eq_ok_iff {operand : String} {n : UInt16} :
    readIndex operand = .ok n ↔ IsNumeral operand n.toNat := by
  rw [← readUInt16_eq_some_iff]
  unfold readIndex
  cases readUInt16 operand.toList with
  | none => simp
  | some m => simp

theorem isSymbol_iff {name : String} : isSymbol name ↔ IsName name := by
  have hchar : ∀ c, isSymbolChar c ↔ c.isAlphanum ∨ c ∈ ['_', '.', ':'] := by
    intro c
    simp [isSymbolChar, or_assoc]
  constructor
  · intro h
    obtain ⟨c, rest, hname, -, hdigit⟩ := exists_cons_of_isSymbol h
    refine ⟨⟨c, by rw [hname, List.head?_cons], hdigit⟩, ?_⟩
    intro d hd
    exact (hchar d).mp (isSymbolChar_of_mem h hd)
  · rintro ⟨⟨c, hhead, hdigit⟩, hchars⟩
    obtain ⟨rest, hname⟩ := List.head?_eq_some_iff.mp hhead
    rw [hname, List.forall_mem_cons] at hchars
    have hrest : rest.all isSymbolChar :=
      List.all_eq_true.mpr fun d hd => (hchar d).mpr (hchars.2 d hd)
    rw [isSymbol, hname, isSymbolText, (hchar c).mpr hchars.1, hrest]
    simpa using hdigit

/-- A constant is read from digits behind at most one minus sign, if its number is one of 16 bits
with a sign. -/
theorem readConstant_eq_ok_iff {operand : String} {n : Int16} :
    readConstant operand = .ok n ↔ IsInteger operand n.toInt := by
  constructor
  · intro h
    unfold readConstant at h
    split at h
    rename_i negative digits hsplit
    cases hread : readNat digits with
    | none =>
      rw [hread] at h
      cases h
    | some m =>
      rw [hread] at h
      dsimp only at h
      generalize hvalue : (if negative = true then -(m : Int) else m) = value at h
      by_cases hrange : -32768 ≤ value ∧ value < 32768
      · rw [if_pos hrange] at h
        cases h
        rw [Int16.toInt_ofInt_of_le hrange.1 hrange.2, ← hvalue]
        -- the digits are what stands behind a minus sign, or all of the operand
        split at hsplit
        · rename_i rest hminus
          cases hsplit
          have hoperand : operand = "-" ++ String.ofList digits :=
            String.toList_inj.mp (by simp [hminus])
          rw [hoperand]
          exact .minus (readNat_eq_some_iff.mp (by rwa [String.toList_ofList]))
        · cases hsplit
          exact .plain (readNat_eq_some_iff.mp hread)
      · rw [if_neg hrange] at h
        cases h
  · have hlow : -2 ^ 15 ≤ n.toInt := n.le_toInt
    have hhigh : n.toInt < 2 ^ 15 := n.toInt_lt
    have hn : n = Int16.ofInt n.toInt := n.ofInt_toInt.symm
    generalize n.toInt = z at hlow hhigh hn ⊢
    intro h
    rw [hn]
    cases h with
    | @plain _ m hm =>
      -- a minus sign is no digit, so none is taken off
      have hminus : ∀ digits, operand.toList ≠ '-' :: digits := by
        intro digits heq
        exact absurd (hm.digits.2 '-' (heq ▸ List.mem_cons_self)) (by decide)
      exact readConstant_plain hminus (readNat_eq_some_iff.mpr hm) (by omega)
    | @minus text m hm =>
      have htext : ("-" ++ text).toList = '-' :: text.toList := by simp
      exact readConstant_minus htext (readNat_eq_some_iff.mpr hm) (by omega)

/-! ### Places -/

theorem ofIndex?_eq_some_iff {i : UInt16} {slot : PointerSlot} :
    PointerSlot.ofIndex? i = some slot ↔ slot.index = i := by
  unfold PointerSlot.ofIndex?
  constructor
  · intro h
    split at h
    · rename_i hzero
      cases h
      exact hzero.symm
    · split at h
      · rename_i hone
        cases h
        exact hone.symm
      · cases h
  · rintro rfl
    cases slot <;> rfl

theorem readPlace_eq_ok_iff {word operand : String} {place : Place} :
    readPlace word.toLower operand = .ok place ↔ Names word operand place := by
  constructor
  · intro h
    unfold readPlace at h
    cases hindex : readIndex operand with
    | error cause =>
      rw [hindex] at h
      cases h
    | ok i =>
      have hi := readIndex_eq_ok_iff.mp hindex
      simp only [hindex, bind, Except.bind, pure, Except.pure, throw, throwThe,
        MonadExceptOf.throw] at h
      split at h
      -- the four segments with a base take every index
      iterate 4
        rename_i hword
        cases h
        exact .based hword hi
      · rename_i hword
        cases h
        exact .static hword hi
      · rename_i hword
        split at h
        · rename_i hlt
          cases h
          exact .temp hword hi (Nat.le_of_lt_succ hlt)
        · cases h
      · rename_i hword
        split at h
        · rename_i slot hslot
          cases h
          rw [← ofIndex?_eq_some_iff.mp hslot] at hi
          exact .pointer hword hi
        · cases h
      · cases h
  · intro h
    cases h with
    | @based segment i hword hi =>
      rw [readPlace, hword, readIndex_eq_ok_iff.mpr hi]
      cases segment <;> rfl
    | static hword hi =>
      rw [readPlace, hword, readIndex_eq_ok_iff.mpr hi]
      rfl
    | @temp i hword hi hle =>
      rw [readPlace, hword, readIndex_eq_ok_iff.mpr hi]
      have hlt : i < tempSize := Nat.lt_succ_of_le hle
      exact if_pos hlt
    | @pointer slot hword hi =>
      rw [readPlace, hword, readIndex_eq_ok_iff.mpr hi]
      cases slot <;> rfl

/-- No place has the word for constants. -/
theorem toLower_ne_constant {word operand : String} {place : Place}
    (h : Names word operand place) : word.toLower ≠ "constant" := by
  cases h with
  | @based segment i hword hi =>
    rw [hword]
    cases segment <;> decide
  | static hword _ | temp hword _ _ | pointer hword _ =>
    rw [hword]
    decide

theorem readPush_eq_ok_iff {word operand : String} {i : Instruction} :
    readPush word operand = .ok i ↔
      (∃ n, word.toLower = "constant" ∧ IsInteger operand n.toInt ∧ i = .pushConstant n) ∨
        ∃ place, Names word operand place ∧ i = place.push := by
  unfold readPush
  by_cases hword : word.toLower = "constant"
  · rw [if_pos hword, map_eq_ok_iff]
    constructor
    · rintro ⟨n, hn, rfl⟩
      exact .inl ⟨n, hword, readConstant_eq_ok_iff.mp hn, rfl⟩
    · rintro (⟨n, -, hn, rfl⟩ | ⟨place, hplace, -⟩)
      · exact ⟨n, readConstant_eq_ok_iff.mpr hn, rfl⟩
      · exact absurd hword (toLower_ne_constant hplace)
  · rw [if_neg hword, map_eq_ok_iff]
    simp only [readPlace_eq_ok_iff]
    constructor
    · exact .inr
    · rintro (⟨n, hconstant, -⟩ | hplace)
      · exact absurd hconstant hword
      · exact hplace

theorem readPop_eq_ok_iff {word operand : String} {i : Instruction} :
    readPop word operand = .ok i ↔ ∃ place, Names word operand place ∧ i = place.pop := by
  unfold readPop
  by_cases hword : word.toLower = "constant"
  · rw [if_pos hword]
    constructor
    · intro h
      cases h
    · rintro ⟨place, hplace, -⟩
      exact absurd hword (toLower_ne_constant hplace)
  · rw [if_neg hword, map_eq_ok_iff]
    simp only [readPlace_eq_ok_iff]

/-! ### Lines -/

section Operands

variable {opcode : String} {operands : List String} {i : Instruction}
  {read : List String → Except LineError.Cause Instruction}

theorem denotes_of_readBare {bare : Instruction} (hbare : Denotes [opcode] bare)
    (h : readBare bare opcode operands = .ok i) : Denotes (opcode :: operands) i := by
  obtain ⟨rfl, rfl⟩ := readBare_eq_ok_iff.mp h
  exact hbare

theorem denotes_of_readNamed {make : String → Instruction}
    (hmake : ∀ name, IsName name → Denotes [opcode, name] (make name))
    (h : readNamed make opcode operands = .ok i) : Denotes (opcode :: operands) i := by
  obtain ⟨name, rfl, hname, rfl⟩ := readNamed_eq_ok_iff.mp h
  exact hmake name (isSymbol_iff.mp hname)

theorem denotes_of_readCounted {make : String → UInt16 → Instruction}
    (hmake : ∀ name operand n, IsName name → IsNumeral operand n.toNat →
      Denotes [opcode, name, operand] (make name n))
    (h : readCounted make opcode operands = .ok i) : Denotes (opcode :: operands) i := by
  obtain ⟨name, operand, n, rfl, hname, hn, rfl⟩ := readCounted_eq_ok_iff.mp h
  exact hmake name operand n (isSymbol_iff.mp hname) (readIndex_eq_ok_iff.mp hn)

/-- Operands that are read as an instruction stand for it behind their opcode. -/
theorem denotes_of_operandReader? (hread : operandReader? opcode = some read)
    (h : read operands = .ok i) : Denotes (opcode :: operands) i := by
  unfold operandReader? at hread
  split at hread <;> cases hread
  · obtain ⟨word, operand, rfl, h⟩ := readAccess_eq_ok_iff.mp h
    rcases readPush_eq_ok_iff.mp h with ⟨n, hword, hn, rfl⟩ | ⟨place, hplace, rfl⟩
    · exact .constant hword hn
    · exact .push hplace
  · obtain ⟨word, operand, rfl, h⟩ := readAccess_eq_ok_iff.mp h
    obtain ⟨place, hplace, rfl⟩ := readPop_eq_ok_iff.mp h
    exact .pop hplace
  · exact denotes_of_readBare (.binary .add) h
  · exact denotes_of_readBare (.binary .sub) h
  · exact denotes_of_readBare (.binary .and) h
  · exact denotes_of_readBare (.binary .or) h
  · exact denotes_of_readBare (.unary .neg) h
  · exact denotes_of_readBare (.unary .not) h
  · exact denotes_of_readBare (.compare .eq) h
  · exact denotes_of_readBare (.compare .gt) h
  · exact denotes_of_readBare (.compare .lt) h
  · exact denotes_of_readBare .return h
  · exact denotes_of_readNamed (fun _ => .label) h
  · exact denotes_of_readNamed (fun _ => .goto) h
  · exact denotes_of_readNamed (fun _ => .ifGoto) h
  · exact denotes_of_readCounted (fun _ _ _ => .function) h
  · exact denotes_of_readCounted (fun _ _ _ => .call) h

/-- An opcode and operands that stand for an instruction are read as it. -/
theorem exists_operandReader?_of_denotes (h : Denotes (opcode :: operands) i) :
    ∃ read, operandReader? opcode = some read ∧ read operands = .ok i := by
  cases h with
  | constant hword hn =>
    exact ⟨_, rfl, readAccess_eq_ok_iff.mpr ⟨_, _, rfl,
      readPush_eq_ok_iff.mpr (.inl ⟨_, hword, hn, rfl⟩)⟩⟩
  | push h =>
    exact ⟨_, rfl, readAccess_eq_ok_iff.mpr ⟨_, _, rfl,
      readPush_eq_ok_iff.mpr (.inr ⟨_, h, rfl⟩)⟩⟩
  | pop h =>
    exact ⟨_, rfl, readAccess_eq_ok_iff.mpr ⟨_, _, rfl, readPop_eq_ok_iff.mpr ⟨_, h, rfl⟩⟩⟩
  | binary op => cases op <;> exact ⟨_, rfl, rfl⟩
  | unary op => cases op <;> exact ⟨_, rfl, rfl⟩
  | compare op => cases op <;> exact ⟨_, rfl, rfl⟩
  | label h | goto h | ifGoto h =>
    exact ⟨_, rfl, readNamed_eq_ok_iff.mpr ⟨_, rfl, isSymbol_iff.mpr h, rfl⟩⟩
  | function h hn | call h hn =>
    exact ⟨_, rfl, readCounted_eq_ok_iff.mpr
      ⟨_, _, _, rfl, isSymbol_iff.mpr h, readIndex_eq_ok_iff.mpr hn, rfl⟩⟩
  | «return» => exact ⟨_, rfl, rfl⟩

end Operands

/-- The opcodes are the words that operands are read for. -/
theorem operandReader?_eq_none_iff {word : String} :
    operandReader? word = none ↔ word ∉ opcodes := by
  constructor
  · intro hnone hmem
    have hall : ∀ opcode ∈ opcodes, (operandReader? opcode).isSome := by decide
    have hsome := hall word hmem
    rw [hnone] at hsome
    cases hsome
  · intro h
    unfold operandReader?
    split
    iterate 17 exact absurd (by decide) h
    rfl

/-! ### The code of a line -/

/-- Where a text does not begin with two slashes, two side by side are in the rest of it. -/
theorem slashes_infix_cons_iff {c : Char} {text : List Char}
    (h : ∀ rest, c = '/' → text = '/' :: rest → False) :
    ['/', '/'] <:+: c :: text ↔ ['/', '/'] <:+: text := by
  rw [List.infix_cons_iff]
  refine or_iff_right ?_
  rintro ⟨rest, heq⟩
  cases heq
  exact h rest rfl rfl

/-- If slashes stand side by side in a text, it is cut before the first two that do. -/
theorem beforeSlashes_append {code : List Char} (h : ¬ ['/', '/'] <:+: code ++ ['/'])
    (after : List Char) : beforeSlashes (code ++ '/' :: '/' :: after) = code := by
  induction code with
  | nil => rfl
  | cons c rest ih =>
    have hrest : ¬ ['/', '/'] <:+: rest ++ ['/'] := fun hinfix => h (List.infix_cons hinfix)
    rw [List.cons_append, beforeSlashes, ih hrest]
    -- the first character and the next are not both slashes
    rintro tail rfl htail
    cases rest with
    | nil => exact h (List.infix_refl _)
    | cons d others =>
      cases htail
      exact h ⟨[], others ++ ['/'], rfl⟩

/-- If no two slashes stand side by side in a text, nothing of it is a comment. -/
theorem beforeSlashes_of_not_infix {text : List Char} (h : ¬ ['/', '/'] <:+: text) :
    beforeSlashes text = text := by
  fun_induction beforeSlashes text with
  | case1 rest => exact absurd ⟨[], rest, rfl⟩ h
  | case2 c rest hslashes ih => rw [ih fun hinfix => h (List.infix_cons hinfix)]
  | case3 => rfl

theorem isCode_beforeSlashes (line : List Char) : IsCode line (beforeSlashes line) := by
  fun_induction beforeSlashes line with
  | case1 rest => exact .cut (show ¬ ['/', '/'] <:+: [] ++ ['/'] by decide) rest
  | case2 c rest hslashes ih =>
    generalize beforeSlashes rest = code at ih
    cases ih with
    | whole h => exact .whole fun hinfix => h ((slashes_infix_cons_iff hslashes).mp hinfix)
    | cut h after =>
      have hnext : ∀ tail, c = '/' → code ++ ['/'] = '/' :: tail → False := by
        intro tail hc htail
        cases code with
        | nil => exact hslashes ('/' :: after) hc rfl
        | cons d others =>
          cases htail
          exact hslashes _ hc rfl
      have hnone : ¬ ['/', '/'] <:+: (c :: code) ++ ['/'] := fun hinfix =>
        h ((slashes_infix_cons_iff hnext).mp hinfix)
      exact .cut hnone after
  | case3 => exact .whole (by decide)

theorem isCode_iff {line code : List Char} : IsCode line code ↔ beforeSlashes line = code := by
  constructor
  · intro h
    cases h with
    | whole h => exact beforeSlashes_of_not_infix h
    | cut h after => exact beforeSlashes_append h after
  · rintro rfl
    exact isCode_beforeSlashes line

theorem trim_eq_nil_iff {text : List Char} : trim text = [] ↔ ∀ c ∈ text, isBlank c := by
  rw [trim, List.reverse_eq_nil_iff, List.dropWhile_eq_nil_iff]
  simp only [List.mem_reverse]
  constructor
  · intro h c hc
    rw [← List.takeWhile_append_dropWhile (p := isBlank) (l := text)] at hc
    rcases List.mem_append.mp hc with hc | hc
    · exact List.mem_takeWhile_imp hc
    · exact h c hc
  · intro h c hc
    exact h c ((List.dropWhile_sublist isBlank).mem hc)

/-- A text that does not begin with a blank begins with a word. -/
theorem exists_word_append {c : Char} (hc : ¬ isBlank c) (rest : List Char) :
    ∃ w text, c :: rest = w ++ text ∧ w ≠ [] ∧ (∀ d ∈ w, ¬ isBlank d) ∧
      ∀ d ∈ text.head?, isBlank d := by
  induction rest generalizing c with
  | nil => exact ⟨[c], [], rfl, List.cons_ne_nil c [], by simpa using hc, by simp⟩
  | cons d others ih =>
    by_cases hd : isBlank d
    · exact ⟨[c], d :: others, rfl, List.cons_ne_nil c [], by simpa using hc, by simpa using hd⟩
    · obtain ⟨w, text, heq, -, hw, hend⟩ := ih hd
      refine ⟨c :: w, text, congrArg (c :: ·) heq, List.cons_ne_nil c w, ?_, hend⟩
      exact List.forall_mem_cons.mpr ⟨hc, hw⟩

theorem words_append_of_head? {w text : List Char} (hne : w ≠ []) (hw : ∀ c ∈ w, ¬ isBlank c)
    (hend : ∀ c ∈ text.head?, isBlank c) : words (w ++ text) = w :: words text := by
  have hone : words w = [w] :=
    words_eq_singleton hne fun c hc => Bool.eq_false_of_not_eq_true (hw c hc)
  cases text with
  | nil =>
    rw [List.append_nil, hone]
    rfl
  | cons c rest =>
    have hc : isBlank c := hend c rfl
    rw [words_append_blank w hc, hone, words_cons_blank hc, List.singleton_append]

theorem areWords_words (text : List Char) : AreWords text (words text) := by
  -- on the length, since a word is taken off as a whole
  induction hlength : text.length using Nat.strong_induction_on generalizing text with
  | _ n ih =>
    subst hlength
    cases text with
    | nil => exact .nil
    | cons c rest =>
      by_cases hc : isBlank c
      · rw [words_cons_blank hc]
        exact .blank hc (ih rest.length (Nat.lt_succ_self _) rest rfl)
      · obtain ⟨w, text, heq, hne, hw, hend⟩ := exists_word_append hc rest
        have hshorter : text.length < (w ++ text).length := by
          have hpos := List.length_pos_iff.mpr hne
          rw [List.length_append]
          omega
        rw [heq] at ih ⊢
        rw [words_append_of_head? hne hw hend]
        exact .word hne hw hend (ih text.length hshorter text rfl)

theorem areWords_iff {text : List Char} {ws : List (List Char)} :
    AreWords text ws ↔ words text = ws := by
  constructor
  · intro h
    induction h with
    | nil => rfl
    | blank hc _ ih => rw [words_cons_blank hc, ih]
    | word hne hw hend _ ih => rw [words_append_of_head? hne hw hend, ih]
  · rintro rfl
    exact areWords_words text

/-- Every line has its tokens, and no others. -/
theorem isTokens_iff {line : String} {ts : List String} :
    IsTokens line ts ↔ tokens line = ts := by
  simp only [IsTokens, isCode_iff, areWords_iff, tokens]
  constructor
  · rintro ⟨code, ws, rfl, rfl, hts⟩
    exact hts
  · intro h
    exact ⟨_, _, rfl, rfl, h⟩

theorem words_eq_nil_iff {text : List Char} : words text = [] ↔ ∀ c ∈ text, isBlank c := by
  induction text with
  | nil => simp [words]
  | cons c rest ih =>
    rw [List.forall_mem_cons]
    by_cases hc : isBlank c
    · rw [words_cons_blank hc, ih]
      exact ⟨fun h => ⟨hc, h⟩, fun h => h.2⟩
    · obtain ⟨w, text, heq, hne, hw, hend⟩ := exists_word_append hc rest
      rw [heq, words_append_of_head? hne hw hend]
      exact ⟨fun h => absurd h (List.cons_ne_nil _ _), fun h => absurd h.1 hc⟩

/-- A line has no code if and only if it has no tokens. -/
theorem strip_eq_nil_iff {line : String} : strip line.toList = [] ↔ tokens line = [] := by
  rw [strip, trim_eq_nil_iff, tokens, List.map_eq_nil_iff, words_eq_nil_iff]

/-- What a line holds is what its tokens are read as. -/
theorem readLine_eq (line : String) :
    readLine line = match tokens line with
      | [] => .ok .blank
      | opcode :: operands => (readWords opcode operands).mapError
          fun cause => ⟨cause, String.ofList (strip line.toList)⟩ := by
  rw [readLine, words_strip]
  rfl

/-! ### Reading lines -/

/-- An instruction is read from its text if and only if it passes the check, and the instructions
that pass it are those that some line holds. -/
theorem readLine_text_iff (i : Instruction) :
    (readLine i.text = .ok (.instruction i) ↔ i.check = .ok ()) ∧
      (i.check = .ok () ↔ ∃ line, readLine line = .ok (.instruction i)) := by
  have hchecked : ∀ {line : String}, readLine line = .ok (.instruction i) → i.check = .ok () :=
    fun h => (readLine_checked h).1
  refine ⟨⟨hchecked, readLine_text⟩, ?_⟩
  constructor
  · intro h
    exact ⟨i.text, readLine_text h⟩
  · rintro ⟨line, h⟩
    exact hchecked h

theorem readWords_eq_instruction_iff {opcode : String} {operands : List String}
    {i : Instruction} :
    readWords opcode operands = .ok (.instruction i) ↔ Denotes (opcode :: operands) i := by
  unfold readWords
  constructor
  · intro h
    split at h
    · rename_i read hread
      obtain ⟨j, hj, heq⟩ := map_eq_ok_iff.mp h
      cases heq
      exact denotes_of_operandReader? hread hj
    · split at h <;> cases h
  · intro h
    obtain ⟨read, hread, hi⟩ := exists_operandReader?_of_denotes h
    rw [hread]
    exact map_eq_ok_iff.mpr ⟨i, hi, rfl⟩

theorem readWords_eq_unknownOpcode_iff {opcode word : String} {operands : List String} :
    readWords opcode operands = .ok (.unknownOpcode word) ↔
      opcode :: operands = [word] ∧ word ∉ opcodes := by
  rw [← operandReader?_eq_none_iff]
  unfold readWords
  constructor
  · intro h
    split at h
    · obtain ⟨j, -, heq⟩ := map_eq_ok_iff.mp h
      cases heq
    · rename_i hnone
      split at h
      · rename_i hempty
        cases h
        exact ⟨by rw [List.isEmpty_iff.mp hempty], hnone⟩
      · cases h
  · rintro ⟨hone, hnone⟩
    cases hone
    rw [hnone]
    rfl

theorem readWords_ne_blank {opcode : String} {operands : List String} :
    readWords opcode operands ≠ .ok .blank := by
  unfold readWords
  intro h
  split at h
  · obtain ⟨j, -, heq⟩ := map_eq_ok_iff.mp h
    cases heq
  · split at h <;> cases h

/-- A line with tokens holds what these are read as, and otherwise the error has the code of the
line. -/
theorem readLine_of_tokens {line opcode : String} {operands : List String}
    (h : tokens line = opcode :: operands) :
    (∀ r, readLine line = .ok r ↔ readWords opcode operands = .ok r) ∧
      ∀ e, readLine line = .error e → e.text = String.ofList (strip line.toList) := by
  rw [readLine_eq, h]
  dsimp only
  cases readWords opcode operands with
  | ok r => exact ⟨fun _ => by simp [Except.mapError], fun _ he => by cases he⟩
  | error cause =>
    refine ⟨fun _ => by simp [Except.mapError], ?_⟩
    intro e he
    cases he
    rfl

/-- The tokens of a line are the words before its comment. The line is blank if and only if it has
none, and that is if it has no code. It holds an instruction if and only if its tokens stand for it,
and a word that is no opcode if that is its only token. Every other line is refused, and the error
has the code of the line without the blanks around it. -/
theorem readLine_iff (line : String) :
    (∀ ts, IsTokens line ts ↔ tokens line = ts) ∧
      (readLine line = .ok .blank ↔ tokens line = []) ∧
      (strip line.toList = [] ↔ tokens line = []) ∧
      (∀ i, readLine line = .ok (.instruction i) ↔ Denotes (tokens line) i) ∧
      (∀ word, readLine line = .ok (.unknownOpcode word) ↔
        tokens line = [word] ∧ word ∉ opcodes) ∧
      ((∃ e, readLine line = .error e) ↔ tokens line ≠ [] ∧ (∀ i, ¬ Denotes (tokens line) i) ∧
        ∀ word, tokens line = [word] → word ∈ opcodes) ∧
      ∀ e, readLine line = .error e →
        e.text = String.ofList (trim (beforeSlashes line.toList)) := by
  refine ⟨fun _ => isTokens_iff, ?_⟩
  cases htokens : tokens line with
  | nil =>
    have hblank : readLine line = .ok .blank := by
      rw [readLine_eq, htokens]
    rw [hblank, strip_eq_nil_iff, htokens]
    refine ⟨by simp, Iff.rfl, ?_, by simp, by simp, by simp⟩
    intro i
    constructor
    · intro h
      cases h
    · intro h
      cases h
  | cons opcode operands =>
    obtain ⟨hok, herror⟩ := readLine_of_tokens htokens
    have hinstruction : ∀ i, readLine line = .ok (.instruction i) ↔
        Denotes (opcode :: operands) i := fun i => (hok _).trans readWords_eq_instruction_iff
    have hunknown : ∀ word, readLine line = .ok (.unknownOpcode word) ↔
        opcode :: operands = [word] ∧ word ∉ opcodes := fun word =>
      (hok _).trans readWords_eq_unknownOpcode_iff
    have hblank : readLine line ≠ .ok .blank := fun h => readWords_ne_blank ((hok _).mp h)
    refine ⟨by simp [hblank], by rw [strip_eq_nil_iff, htokens], hinstruction, hunknown, ?_, herror⟩
    -- what is none of the readings is an error
    constructor
    · rintro ⟨e, he⟩
      refine ⟨List.cons_ne_nil _ _, fun i hi => ?_, fun word hword => ?_⟩
      · cases he.symm.trans ((hinstruction i).mpr hi)
      · by_contra hnot
        cases he.symm.trans ((hunknown word).mpr ⟨hword, hnot⟩)
    · rintro ⟨-, hnone, honly⟩
      cases hread : readLine line with
      | error e => exact ⟨e, rfl⟩
      | ok r =>
        cases r with
        | blank => exact absurd hread hblank
        | instruction i => exact absurd ((hinstruction i).mp hread) (hnone i)
        | unknownOpcode word =>
          obtain ⟨hword, hnot⟩ := (hunknown word).mp hread
          exact absurd (honly word hword) hnot

end HackVm
