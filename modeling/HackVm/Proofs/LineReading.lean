/-
Lines of source and the instructions on them.

What a line holds depends on its words alone (`words_strip`). The words that are read as an
instruction make sure that it passes the check of instructions that come from elsewhere
(`ReadsChecked`). In the other direction the opcode and the operands of an instruction that passes
the check are words (`isWord_of_mem_tokens`), and these are read as the instruction
(`readWords_operands`):

* **`readLine_checked`** — only instructions that pass the check are read;
* **`readLine_text`** — each of them is read from its text.
-/
import HackVm.Proofs.OutputGrammar
import HackVm.Proofs.Texts

namespace HackVm

open Text

/-! ### Operands -/

theorem map_eq_ok_iff {ε α β : Type} {f : α → β} {r : Except ε α} {b : β} :
    r.map f = .ok b ↔ ∃ a, r = .ok a ∧ b = f a := by
  cases r with
  | error e => simp [Except.map]
  | ok a => simp [Except.map, eq_comm]

theorem readSymbol_eq_ok_iff {operand name : String} :
    readSymbol operand = .ok name ↔ isSymbol operand ∧ name = operand := by
  unfold readSymbol
  by_cases h : isSymbol operand
  · simp [h, eq_comm]
  · simp [h]

theorem readBare_eq_ok_iff {i j : Instruction} {opcode : String} {operands : List String} :
    readBare i opcode operands = .ok j ↔ operands = [] ∧ j = i := by
  cases operands with
  | nil => simp [readBare, eq_comm]
  | cons first others => simp [readBare]

theorem readNamed_eq_ok_iff {make : String → Instruction} {i : Instruction} {opcode : String}
    {operands : List String} :
    readNamed make opcode operands = .ok i ↔
      ∃ name, operands = [name] ∧ isSymbol name ∧ i = make name := by
  unfold readNamed
  split
  · rename_i operand
    rw [readSymbol]
    split
    · rename_i h
      simp [Except.map, h, @eq_comm _ i]
    · rename_i h
      simp [Except.map, h]
  · rename_i hone
    simp only [reduceCtorEq, false_iff]
    rintro ⟨name, rfl, -⟩
    exact hone name rfl

theorem readCounted_eq_ok_iff {make : String → UInt16 → Instruction} {i : Instruction}
    {opcode : String} {operands : List String} :
    readCounted make opcode operands = .ok i ↔
      ∃ name count n, operands = [name, count] ∧ isSymbol name ∧ readIndex count = .ok n ∧
        i = make name n := by
  unfold readCounted
  split
  · rename_i operand count
    rw [readSymbol]
    split
    · rename_i h
      cases hcount : readIndex count with
      | error cause => simp [bind, Except.bind, hcount]
      | ok n => simp [bind, Except.bind, pure, Except.pure, h, hcount, @eq_comm _ i]
    · rename_i h
      simp [bind, Except.bind, h]
  · rename_i htwo
    simp only [reduceCtorEq, false_iff]
    rintro ⟨name, count, n, rfl, -⟩
    exact htwo name count rfl

theorem readAccess_eq_ok_iff {read : String → String → Except LineError.Cause Instruction}
    {i : Instruction} {opcode : String} {operands : List String} :
    readAccess read opcode operands = .ok i ↔
      ∃ segment operand, operands = [segment, operand] ∧ read segment operand = .ok i := by
  unfold readAccess
  split
  · rename_i segment operand
    simp
  · rename_i htwo
    simp only [reduceCtorEq, false_iff]
    rintro ⟨segment, operand, rfl, -⟩
    exact htwo segment operand rfl

/-! ### What is read -/

/-- Whether the instructions that are read from operands pass the check, and have names that are
among the operands. -/
def ReadsChecked (read : List String → Except LineError.Cause Instruction) : Prop :=
  ∀ operands i, read operands = .ok i →
    i.check = .ok () ∧ ∀ name, i.name? = some name → name ∈ operands

theorem readsChecked_bare {i : Instruction} {opcode : String} (hcheck : i.check = .ok ())
    (hname : i.name? = none) : ReadsChecked (readBare i opcode) := by
  intro operands j h
  obtain ⟨rfl, rfl⟩ := readBare_eq_ok_iff.mp h
  exact ⟨hcheck, by simp [hname]⟩

theorem readsChecked_named {make : String → Instruction} {opcode : String}
    (hcheck : ∀ name, (make name).check = (readSymbol name).map fun _ => ())
    (hname : ∀ name, (make name).name? = some name) : ReadsChecked (readNamed make opcode) := by
  intro operands i h
  obtain ⟨name, rfl, hsymbol, rfl⟩ := readNamed_eq_ok_iff.mp h
  refine ⟨?_, by simp [hname]⟩
  rw [hcheck, readSymbol_eq_ok_iff.mpr ⟨hsymbol, rfl⟩]
  rfl

theorem readsChecked_counted {make : String → UInt16 → Instruction} {opcode : String}
    (hcheck : ∀ name n, (make name n).check = (readSymbol name).map fun _ => ())
    (hname : ∀ name n, (make name n).name? = some name) :
    ReadsChecked (readCounted make opcode) := by
  intro operands i h
  obtain ⟨name, count, n, rfl, hsymbol, -, rfl⟩ := readCounted_eq_ok_iff.mp h
  refine ⟨?_, by simp [hname]⟩
  rw [hcheck, readSymbol_eq_ok_iff.mpr ⟨hsymbol, rfl⟩]
  rfl

/-- A place that is read can be pushed from and popped into. -/
theorem check_of_readPlace {segment operand : String} {place : Place}
    (h : readPlace segment operand = .ok place) :
    place.push.check = .ok () ∧ place.pop.check = .ok () := by
  unfold readPlace at h
  cases hindex : readIndex operand with
  | error cause =>
    rw [hindex] at h
    cases h
  | ok n =>
    simp only [hindex, bind, Except.bind, pure, Except.pure, throw, throwThe,
      MonadExceptOf.throw] at h
    split at h
    iterate 5
      cases h
      exact ⟨rfl, rfl⟩
    · split at h
      · rename_i htemp
        cases h
        exact ⟨if_pos htemp, if_pos htemp⟩
      · cases h
    · split at h
      · cases h
        exact ⟨rfl, rfl⟩
      · cases h
    · cases h

theorem name?_place (place : Place) : place.push.name? = none ∧ place.pop.name? = none := by
  cases place <;> exact ⟨rfl, rfl⟩

theorem readsChecked_push (opcode : String) : ReadsChecked (readAccess readPush opcode) := by
  intro operands i h
  obtain ⟨segment, operand, rfl, hread⟩ := readAccess_eq_ok_iff.mp h
  unfold readPush at hread
  split at hread
  · obtain ⟨n, -, rfl⟩ := map_eq_ok_iff.mp hread
    exact ⟨rfl, by simp [Instruction.name?]⟩
  · obtain ⟨place, hplace, rfl⟩ := map_eq_ok_iff.mp hread
    exact ⟨(check_of_readPlace hplace).1, by simp [name?_place]⟩

theorem readsChecked_pop (opcode : String) : ReadsChecked (readAccess readPop opcode) := by
  intro operands i h
  obtain ⟨segment, operand, rfl, hread⟩ := readAccess_eq_ok_iff.mp h
  unfold readPop at hread
  split at hread
  · cases hread
  · obtain ⟨place, hplace, rfl⟩ := map_eq_ok_iff.mp hread
    exact ⟨(check_of_readPlace hplace).2, by simp [name?_place]⟩

/-- Whatever the opcode, the instructions that are read pass the check. -/
theorem readsChecked_operandReader? {opcode : String}
    {read : List String → Except LineError.Cause Instruction}
    (h : operandReader? opcode = some read) : ReadsChecked read := by
  unfold operandReader? at h
  split at h
  · cases h
    exact readsChecked_push _
  · cases h
    exact readsChecked_pop _
  iterate 10
    cases h
    exact readsChecked_bare rfl rfl
  iterate 3
    cases h
    exact readsChecked_named (fun _ => rfl) fun _ => rfl
  iterate 2
    cases h
    exact readsChecked_counted (fun _ _ => rfl) fun _ _ => rfl
  · cases h

/-- An instruction that is read from a line passes the check, and its name stands on the line. -/
theorem readLine_checked {line : String} {i : Instruction}
    (h : readLine line = .ok (.instruction i)) :
    i.check = .ok () ∧ ∀ name, i.name? = some name → name.toList ∈ words (strip line.toList) := by
  simp only [readLine] at h
  split at h
  · cases h
  · rename_i opcode operands hwords
    unfold readWords at h
    split at h
    · rename_i read hread
      cases hoperands : read operands with
      | error cause =>
        rw [hoperands] at h
        cases h
      | ok j =>
        rw [hoperands] at h
        cases h
        obtain ⟨hcheck, hname⟩ := readsChecked_operandReader? hread operands i hoperands
        refine ⟨hcheck, ?_⟩
        intro name hsome
        have hmem : name ∈ (words (strip line.toList)).map String.ofList :=
          hwords ▸ List.mem_cons_of_mem opcode (hname name hsome)
        obtain ⟨word, hword, rfl⟩ := List.mem_map.mp hmem
        rwa [String.toList_ofList]
    · split at h <;> cases h

/-! ### Reading texts back -/

theorem readIndex_toString (n : UInt16) : readIndex (toString n.toNat) = .ok n := by
  have hdigits : (toString n.toNat).toList = Nat.toDigits 10 n.toNat := by
    simp
  have hread : readUInt16 (toString n.toNat).toList = some n := by
    rw [hdigits, readUInt16, readNat_toDigits, Option.bind_some, if_pos n.toNat_lt,
      UInt16.ofNat_toNat]
  rw [readIndex, hread]

theorem readConstant_minus {operand : String} {digits : List Char} {m : Nat}
    (htext : operand.toList = '-' :: digits) (hread : readNat digits = some m) (hm : m ≤ 32768) :
    readConstant operand = .ok (Int16.ofInt (-m)) := by
  have hrange : -32768 ≤ -(m : Int) ∧ -(m : Int) < 32768 := by
    omega
  simp only [readConstant, htext, hread, if_true, if_pos hrange]

theorem readConstant_plain {operand : String} {m : Nat}
    (htext : ∀ digits, operand.toList ≠ '-' :: digits) (hread : readNat operand.toList = some m)
    (hm : m < 32768) : readConstant operand = .ok (Int16.ofInt m) := by
  have hrange : -32768 ≤ (m : Int) ∧ (m : Int) < 32768 := by
    omega
  unfold readConstant
  split
  rename_i negative digits hsplit
  split at hsplit
  · rename_i rest hminus
    exact absurd hminus (htext rest)
  · cases hsplit
    simp only [hread, Bool.false_eq_true, if_false, if_pos hrange]

theorem readConstant_toString (n : Int16) : readConstant (toString n.toInt) = .ok n := by
  have hlow := n.le_toInt
  have hhigh := n.toInt_lt
  have hn : Int16.ofInt n.toInt = n := n.ofInt_toInt
  generalize n.toInt = value at hlow hhigh hn
  cases value with
  | ofNat m =>
    have htext : (toString (Int.ofNat m)).toList = Nat.toDigits 10 m := by
      simp [toString, Int.repr]
    have hplain : ∀ digits, (toString (Int.ofNat m)).toList ≠ '-' :: digits := by
      intro digits hminus
      rw [htext] at hminus
      have hdigit := Nat.isDigit_of_mem_toDigits (b := 10) (n := m) (by decide) (by decide)
        (hminus ▸ List.mem_cons_self)
      exact absurd hdigit (by decide)
    have hread : readNat (toString (Int.ofNat m)).toList = some m := by
      rw [htext, readNat_toDigits]
    rw [Int.ofNat_eq_natCast] at hhigh
    rw [readConstant_plain hplain hread (by omega)]
    exact congrArg Except.ok hn
  | negSucc m =>
    have htext : (toString (Int.negSucc m)).toList = '-' :: Nat.toDigits 10 (m + 1) := by
      simp [toString, Int.repr]
    rw [readConstant_minus htext (readNat_toDigits (m + 1)) (by omega)]
    exact congrArg Except.ok hn

/-- The words for the places that words are pushed from and popped into. -/
def placeWords : List String :=
  ["local", "argument", "this", "that", "static", "temp", "pointer"]

theorem toLower_of_mem_placeWords {word : String} (h : word ∈ placeWords) :
    word.toLower = word ∧ word ≠ "constant" := by
  have hall : ∀ word ∈ placeWords, word.toLower = word ∧ word ≠ "constant" := by
    decide +kernel
  exact hall word h

theorem readPush_of_readPlace {word operand : String} {place : Place} (hword : word ∈ placeWords)
    (h : readPlace word operand = .ok place) : readPush word operand = .ok place.push := by
  obtain ⟨hlower, hne⟩ := toLower_of_mem_placeWords hword
  rw [readPush, hlower, if_neg hne, h]
  rfl

theorem readPop_of_readPlace {word operand : String} {place : Place} (hword : word ∈ placeWords)
    (h : readPlace word operand = .ok place) : readPop word operand = .ok place.pop := by
  obtain ⟨hlower, hne⟩ := toLower_of_mem_placeWords hword
  rw [readPop, hlower, if_neg hne, h]
  rfl

/-- The words for a place. -/
def Place.operands : Place → List String
  | .based segment i => [segment.keyword, toString i.toNat]
  | .static i => ["static", toString i.toNat]
  | .pointer slot => ["pointer", toString slot.index.toNat]
  | .temp i => ["temp", toString i.toNat]

theorem readPlace_operands {place : Place} (h : place.push.check = .ok ()) :
    ∃ word ∈ placeWords, ∃ operand, place.operands = [word, operand] ∧
      readPlace word operand = .ok place := by
  cases place with
  | based segment i =>
    refine ⟨segment.keyword, by cases segment <;> decide, toString i.toNat, rfl, ?_⟩
    cases segment <;> simp only [readPlace, Segment.keyword, readIndex_toString] <;> rfl
  | static i =>
    refine ⟨"static", by decide, toString i.toNat, rfl, ?_⟩
    simp only [readPlace, readIndex_toString]
    rfl
  | pointer slot =>
    refine ⟨"pointer", by decide, toString slot.index.toNat, rfl, ?_⟩
    simp only [readPlace, readIndex_toString]
    cases slot <;> rfl
  | temp i =>
    refine ⟨"temp", by decide, toString i.toNat, rfl, ?_⟩
    have htemp : i < tempSize := by
      by_contra hlarge
      exact absurd ((if_neg hlarge).symm.trans h) (by simp)
    simp only [readPlace, readIndex_toString, bind, Except.bind, if_pos htemp]
    rfl

theorem readWords_of_operandReader? {opcode : String} {operands : List String} {i : Instruction}
    {read : List String → Except LineError.Cause Instruction}
    (hreader : operandReader? opcode = some read) (hread : read operands = .ok i) :
    readWords opcode operands = .ok (.instruction i) := by
  rw [readWords, hreader]
  simp only [hread]
  rfl

theorem readWords_push (place : Place) (h : place.push.check = .ok ()) :
    readWords "push" place.operands = .ok (.instruction place.push) := by
  obtain ⟨word, hword, operand, hoperands, hread⟩ := readPlace_operands h
  refine readWords_of_operandReader? rfl (readAccess_eq_ok_iff.mpr ?_)
  exact ⟨word, operand, hoperands, readPush_of_readPlace hword hread⟩

theorem readWords_pop (place : Place) (h : place.push.check = .ok ()) :
    readWords "pop" place.operands = .ok (.instruction place.pop) := by
  obtain ⟨word, hword, operand, hoperands, hread⟩ := readPlace_operands h
  refine readWords_of_operandReader? rfl (readAccess_eq_ok_iff.mpr ?_)
  exact ⟨word, operand, hoperands, readPop_of_readPlace hword hread⟩

theorem readWords_named {make : String → Instruction} {opcode name : String}
    (hreader : operandReader? opcode = some (readNamed make opcode))
    (hname : (readSymbol name).map (fun _ => ()) = .ok ()) :
    readWords opcode [name] = .ok (.instruction (make name)) :=
  readWords_of_operandReader? hreader
    (readNamed_eq_ok_iff.mpr ⟨name, rfl, isSymbol_of_readSymbol hname, rfl⟩)

theorem readWords_counted {make : String → UInt16 → Instruction} {opcode name : String}
    (n : UInt16) (hreader : operandReader? opcode = some (readCounted make opcode))
    (hname : (readSymbol name).map (fun _ => ()) = .ok ()) :
    readWords opcode [name, toString n.toNat] = .ok (.instruction (make name n)) :=
  readWords_of_operandReader? hreader (readCounted_eq_ok_iff.mpr
    ⟨name, _, n, rfl, isSymbol_of_readSymbol hname, readIndex_toString n, rfl⟩)

/-- The words of an instruction that passes the check are read as the instruction. -/
theorem readWords_operands {i : Instruction} (h : i.check = .ok ()) :
    readWords i.opcode i.operands = .ok (.instruction i) := by
  cases i with
  | pushConstant n =>
    refine readWords_of_operandReader? rfl (readAccess_eq_ok_iff.mpr ⟨_, _, rfl, ?_⟩)
    have hlower : "constant".toLower = "constant" := by decide +kernel
    rw [readPush, if_pos hlower, readConstant_toString]
    rfl
  | pushSegment segment n => exact readWords_push (.based segment n) h
  | popSegment segment n => exact readWords_pop (.based segment n) h
  | pushStatic n => exact readWords_push (.static n) h
  | popStatic n => exact readWords_pop (.static n) h
  | pushPointer slot => exact readWords_push (.pointer slot) h
  | popPointer slot => exact readWords_pop (.pointer slot) h
  | pushTemp n => exact readWords_push (.temp n) h
  | popTemp n => exact readWords_pop (.temp n) h
  | binary op => cases op <;> rfl
  | unary op => cases op <;> rfl
  | compare op => cases op <;> rfl
  | label name => exact readWords_named rfl h
  | goto name => exact readWords_named rfl h
  | ifGoto name => exact readWords_named rfl h
  | function name n => exact readWords_counted n rfl h
  | call name n => exact readWords_counted n rfl h
  | «return» => rfl

/-! ### The text of an instruction -/

/-- A text that is a word of its line wherever it stands. -/
def IsWord (text : String) : Prop :=
  text.toList ≠ [] ∧ ∀ c ∈ text.toList, IsCodeChar c

instance (text : String) : Decidable (IsWord text) :=
  decidable_of_iff (text.toList ≠ [] ∧ text.toList.all fun c => IsCodeChar c)
    (and_congr_right fun _ => List.all_iff_forall_prop)

theorem isWord_of_isSymbol {name : String} (h : isSymbol name) : IsWord name := by
  obtain ⟨c, rest, hname, -, -⟩ := exists_cons_of_isSymbol h
  exact ⟨by simp [hname], isCodeChar_of_isTargetName (isTargetName_of_isSymbol h)⟩

theorem isWord_toString_nat (n : Nat) : IsWord (toString n) :=
  ⟨(isDecimal_toString n).1, isCodeChar_of_isTargetName (isTargetName_toString n)⟩

theorem toList_toString_negSucc (m : Nat) :
    (toString (Int.negSucc m)).toList = '-' :: (toString (m + 1)).toList := by
  simp [toString, Int.repr]

theorem isWord_toString_int (n : Int) : IsWord (toString n) := by
  cases n with
  | ofNat m => exact isWord_toString_nat m
  | negSucc m =>
    have hminus : IsCodeChar '-' := by decide
    rw [IsWord, toList_toString_negSucc]
    exact ⟨List.cons_ne_nil _ _, List.forall_mem_cons.mpr ⟨hminus, (isWord_toString_nat _).2⟩⟩

/-- The words that begin an instruction. -/
def opcodes : List String :=
  ["push", "pop", "add", "sub", "and", "or", "neg", "not", "eq", "gt", "lt", "label", "goto",
    "if-goto", "function", "call", "return"]

theorem opcode_mem_opcodes (i : Instruction) : i.opcode ∈ opcodes := by
  cases i with
  | binary op => cases op <;> decide
  | unary op => cases op <;> decide
  | compare op => cases op <;> decide
  | _ =>
    dsimp only [Instruction.opcode]
    decide

theorem isWord_opcode (i : Instruction) : IsWord i.opcode := by
  have hall : ∀ opcode ∈ opcodes, IsWord opcode := by decide
  exact hall _ (opcode_mem_opcodes i)

/-- The operands of an instruction that passes the check are words for places, numbers and
symbols. -/
theorem mem_operands_cases {i : Instruction} (h : i.check = .ok ()) {operand : String}
    (hmem : operand ∈ i.operands) :
    operand ∈ "constant" :: placeWords ∨ (∃ n : Int, operand = toString n) ∨ isSymbol operand := by
  have hsegment : ∀ s : Segment, s.keyword ∈ "constant" :: placeWords := by
    intro s
    cases s <;> decide
  have hnat : ∀ n : Nat, ∃ m : Int, toString n = toString m := fun n => ⟨n, rfl⟩
  cases i <;> simp only [Instruction.operands, List.mem_cons, List.not_mem_nil, or_false] at hmem
  case label | goto | ifGoto =>
    exact .inr (.inr (hmem ▸ isSymbol_of_readSymbol h))
  case function | call =>
    rcases hmem with rfl | rfl
    · exact .inr (.inr (isSymbol_of_readSymbol h))
    · exact .inr (.inl (hnat _))
  case pushConstant =>
    rcases hmem with rfl | rfl
    · exact .inl (by decide)
    · exact .inr (.inl ⟨_, rfl⟩)
  case pushSegment | popSegment =>
    rcases hmem with rfl | rfl
    · exact .inl (hsegment _)
    · exact .inr (.inl (hnat _))
  all_goals
    rcases hmem with rfl | rfl
    · exact .inl (by decide)
    · exact .inr (.inl (hnat _))

theorem isWord_of_mem_operands {i : Instruction} (h : i.check = .ok ()) {operand : String}
    (hmem : operand ∈ i.operands) : IsWord operand := by
  have hword : ∀ word ∈ "constant" :: placeWords, IsWord word := by
    decide
  rcases mem_operands_cases h hmem with hplace | ⟨n, rfl⟩ | hsymbol
  · exact hword operand hplace
  · exact isWord_toString_int n
  · exact isWord_of_isSymbol hsymbol

theorem isWord_of_mem_tokens {i : Instruction} (h : i.check = .ok ()) {token : String}
    (hmem : token ∈ i.opcode :: i.operands) : IsWord token := by
  rcases List.mem_cons.mp hmem with rfl | hmem
  · exact isWord_opcode i
  · exact isWord_of_mem_operands h hmem

theorem toList_text (i : Instruction) :
    i.text.toList = [' '].intercalate ((i.opcode :: i.operands).map String.toList) := by
  rw [Instruction.text, String.toList_intercalate]
  rfl

/-- The text of an instruction that passes the check has no blanks but spaces, and no comment. -/
theorem isCodeChar_of_mem_text {i : Instruction} (h : i.check = .ok ()) {c : Char}
    (hc : c ∈ i.text.toList) : c = ' ' ∨ IsCodeChar c := by
  rw [toList_text] at hc
  rcases mem_intercalate hc with hspace | ⟨piece, hpiece, hc⟩
  · exact .inl hspace
  · obtain ⟨token, htoken, rfl⟩ := List.mem_map.mp hpiece
    exact .inr ((isWord_of_mem_tokens h htoken).2 c hc)

/-- The text of an instruction that passes the check is read as its opcode and operands. -/
theorem words_strip_text {i : Instruction} (h : i.check = .ok ()) :
    words (strip i.text.toList) = (i.opcode :: i.operands).map String.toList := by
  have hslash : ∀ c ∈ i.text.toList, c ≠ '/' := by
    rintro c hc rfl
    rcases isCodeChar_of_mem_text h hc with hspace | hcode
    · exact absurd hspace (by decide)
    · exact hcode.1 rfl
  rw [words_strip, beforeSlashes_eq hslash, toList_text]
  refine words_intercalate (by decide) ?_
  intro w hw
  obtain ⟨token, htoken, rfl⟩ := List.mem_map.mp hw
  have hword := isWord_of_mem_tokens h htoken
  exact ⟨hword.1, fun c hc => (hword.2 c hc).2⟩

/-- The text of an instruction that passes the check is read as the instruction. -/
theorem readLine_text {i : Instruction} (h : i.check = .ok ()) :
    readLine i.text = .ok (.instruction i) := by
  have htokens : (words (strip i.text.toList)).map String.ofList = i.opcode :: i.operands := by
    rw [words_strip_text h, map_ofList_map_toList]
  simp only [readLine, htokens, readWords_operands h]
  rfl

end HackVm
