/-
Numbers that the templates load.

An index, a count, a constant or the base of the stack is printed in decimal digits and read
again when the text is loaded. The lines of a block that load a number are those for
`Block.numbers` (`decimals_code`). Of these only the size of the frame of a call can have more than
16 bits (`lt_of_mem_numbers`); a number that has not is loaded as what it is, and one that has is no
number to the machine, but a variable or whatever is declared under its digits.

* **`numbers_keep_value`** — what each of these lines is loaded as, wherever the block stands, and
  what a call of any number of arguments leaves as the bases of the segments;
* **`call_of_65531_arguments`** — with that many arguments the size of the frame is a variable.
-/
import HackVm.Proofs.BlocksInText
import HackVm.Proofs.CallBracket
import HackVm.Proofs.FixedCells
import HackVm.Proofs.OutputGrammar

namespace HackVm

open Assembly Machine Template

/-! ### The numbers of a block -/

/-- The numbers that the template of an instruction loads. -/
def Instruction.numbers : Instruction → List Nat
  | .pushConstant n => constantNumbers n
  | .pushSegment _ i | .popSegment _ i => [i.toNat]
  | .compare _ => [0]
  | .function _ n => List.replicate n.toNat 0
  | .call _ args => [args.toNat + 5]
  | .return => [5]
  | _ => []

/-- The numbers that the code of a block loads, in their order. -/
def Block.numbers : Block → List Nat
  | .bootstrap base _ _ => [base.toNat, 5]
  | .instruction _ _ i => i.numbers

/-- Only a call with too many arguments loads a number of more than 16 bits. -/
theorem lt_of_mem_numbers {b : Block} {n : Nat} (h : n ∈ b.numbers) :
    n < 65536 ∨ ∃ scope labels name args,
      b = .instruction scope labels (.call name args) ∧ 65531 ≤ args.toNat := by
  cases b with
  | bootstrap base entry id =>
    have hbase := base.toNat_lt
    simp only [Block.numbers, List.mem_cons, List.not_mem_nil, or_false] at h
    omega
  | instruction scope labels i =>
    change n ∈ i.numbers at h
    cases i with
    | pushConstant value => exact .inl (lt_of_mem_constantNumbers h)
    | pushSegment segment i | popSegment segment i =>
      have hi := i.toNat_lt
      exact .inl (List.mem_singleton.mp h ▸ hi)
    | function name n =>
      rw [List.eq_of_mem_replicate h]
      exact .inl (Nat.succ_pos _)
    | call name args =>
      have hn := List.mem_singleton.mp h
      by_cases hargs : 65531 ≤ args.toNat
      · exact .inr ⟨scope, labels, name, args, rfl, hargs⟩
      · exact .inl (by omega)
    | compare op | «return» =>
      rw [List.mem_singleton.mp h]
      exact .inl (by omega)
    | _ => exact absurd h List.not_mem_nil

/-! ### The lines that load them -/

instance (text : String) : Decidable (IsDecimal text) :=
  decidable_of_iff (text.toList ≠ [] ∧ text.toList.all Char.isDigit)
    (and_congr_right fun _ => List.all_eq_true)

theorem not_isDecimal {text : String} {c : Char} (hc : c ∈ text.toList) (hdigit : ¬ c.isDigit) :
    ¬ IsDecimal text := by
  intro h
  exact hdigit (h.2 c hc)

theorem not_isDecimal_of_mem_templateCells :
    ∀ cell ∈ templateCells, ¬ IsDecimal cell := by
  decide

/-- The names in a list that are made of digits only. -/
def decimals (names : List String) : List String :=
  names.filter fun name => IsDecimal name

section Decimals

variable {names : List String} {name : String}

theorem decimals_append (first second : List String) :
    decimals (first ++ second) = decimals first ++ decimals second :=
  List.filter_append ..

theorem decimals_cons_toString (n : Nat) (names : List String) :
    decimals (toString n :: names) = toString n :: decimals names :=
  List.filter_cons_of_pos (by simpa using isDecimal_toString n)

theorem decimals_map_toString (numbers : List Nat) :
    decimals (numbers.map toString) = numbers.map toString := by
  refine List.filter_eq_self.mpr ?_
  intro name hname
  obtain ⟨n, -, rfl⟩ := List.mem_map.mp hname
  simpa using isDecimal_toString n

theorem decimals_cons_of_not (h : ¬ IsDecimal name) (names : List String) :
    decimals (name :: names) = decimals names :=
  List.filter_cons_of_neg (by simpa using h)

theorem decimals_cells (h : ∀ name ∈ names, name ∈ templateCells) : decimals names = [] := by
  refine List.filter_eq_nil_iff.mpr ?_
  intro name hname
  simpa using not_isDecimal_of_mem_templateCells name (h name hname)

/-- The symbols of a push of one word from its cell. -/
theorem decimals_pushFrom (h : ¬ IsDecimal name) : decimals [name, "SP", "SP"] = [] := by
  rw [decimals_cons_of_not h, decimals_cells (by decide)]

/-- The symbols of a pop of one word to its cell. -/
theorem decimals_popTo (h : ¬ IsDecimal name) : decimals ["SP", name] = [] := by
  rw [decimals_cons_of_not (by decide), decimals_cons_of_not h]
  rfl

end Decimals

theorem decimals_zeros (n : Nat) :
    decimals (List.replicate n [toString 0, "SP", "SP"]).flatten =
      (List.replicate n 0).map toString := by
  induction n with
  | zero => rfl
  | succ n ih =>
    rw [List.replicate_succ, List.flatten_cons, decimals_append, ih, decimals_cons_toString,
      decimals_cells (by decide)]
    rfl

/-- A call loads the size of its frame, and otherwise a number only if it is the name called. -/
theorem decimals_callSymbols (name : String) (args : UInt16) (id : Nat) :
    decimals (callSymbols name args id) = toString (args.toNat + 5) :: decimals [name] := by
  have hreturn : ¬ IsDecimal (returnLabel name id) :=
    not_isDecimal (c := '$') (by simp [toList_returnLabel]) (by decide)
  rw [callSymbols, decimals_append, decimals_append, decimals_cons_of_not hreturn,
    decimals_cons_toString, decimals_cells (by decide), decimals_cells (by decide)]
  rfl

theorem decimals_compareSymbols (op : CompareOp) (id : Nat) :
    decimals (compareSymbols op id) = [toString 0] := by
  have hlabel : ∀ part, ¬ IsDecimal (compareLabel op part id) := by
    intro part
    exact not_isDecimal (c := '$') (by simp [toList_compareLabel]) (by decide)
  have hcells : ¬ IsDecimal "SP" ∧ ¬ IsDecimal "R13" ∧ ¬ IsDecimal "R14" := by decide
  obtain ⟨hsp, hscratchA, hscratchB⟩ := hcells
  simp only [compareSymbols, decimals_cons_of_not (hlabel _), decimals_cons_of_not hsp,
    decimals_cons_of_not hscratchA, decimals_cons_of_not hscratchB, decimals_cons_toString]
  rfl

/-- The symbols in a block that are made of digits are its numbers, and the name that it calls if
that is one. -/
theorem decimals_code (b : Block) :
    decimals (b.code.filterMap Line.symbol?) =
      b.numbers.map toString ++ decimals b.callee?.toList := by
  -- a name has a character that is no digit; of the cells' symbols this is found by evaluation
  have hstatic : ∀ (scope : Scope) i, ¬ IsDecimal (scope.static i) := fun scope i =>
    not_isDecimal (c := '.') (by simp [Scope.static]) (by decide)
  have hlabel : ∀ (scope : Scope) name, ¬ IsDecimal (scope.label name) := fun scope name =>
    not_isDecimal (c := '$') (by simp [Scope.label]) (by decide)
  have htemp : ∀ i, ¬ IsDecimal (tempCell i) := fun i =>
    not_isDecimal (c := 'R') (by simp [tempCell]) (by decide)
  have hbase : ∀ segment : Segment, ¬ IsDecimal segment.baseSymbol := fun segment =>
    not_isDecimal_of_mem_templateCells _ (baseSymbol_mem_templateCells segment)
  have hslot : ∀ slot : PointerSlot, ¬ IsDecimal slot.symbol := fun slot =>
    not_isDecimal_of_mem_templateCells _ (slotSymbol_mem_templateCells slot)
  rw [filterMap_symbol?_code]
  cases b with
  | bootstrap base entry id =>
    rw [Block.symbols, decimals_cons_toString, decimals_cons_of_not (by decide),
      decimals_callSymbols]
    rfl
  | instruction scope labels i =>
    cases i with
    | pushConstant n =>
      show decimals ((constantNumbers n).map toString ++ ["SP", "SP"]) =
        (constantNumbers n).map toString ++ []
      rw [decimals_append, decimals_map_toString, decimals_cells (by decide)]
    | pushSegment segment i =>
      show decimals (toString i.toNat :: segment.baseSymbol :: ["SP", "SP"]) = _
      rw [decimals_cons_toString, decimals_pushFrom (hbase segment)]
      rfl
    | popSegment segment i =>
      show decimals (["SP", "R13"] ++ toString i.toNat :: segment.baseSymbol ::
        ["R14", "R13", "R14"]) = _
      rw [decimals_append, decimals_cons_toString, decimals_cons_of_not (hbase segment),
        decimals_cells (by decide), decimals_cells (by decide)]
      rfl
    | pushStatic i => exact decimals_pushFrom (hstatic scope i)
    | popStatic i => exact decimals_popTo (hstatic scope i)
    | pushPointer slot => exact decimals_pushFrom (hslot slot)
    | popPointer slot => exact decimals_popTo (hslot slot)
    | pushTemp i => exact decimals_pushFrom (htemp i)
    | popTemp i => exact decimals_popTo (htemp i)
    | binary op | unary op | label name => rfl
    | compare op => exact decimals_compareSymbols op labels.compare
    | goto name => exact decimals_cons_of_not (hlabel scope name) []
    | ifGoto name => exact decimals_popTo (hlabel scope name)
    | function name n =>
      exact (decimals_zeros n.toNat).trans (List.append_nil _).symm
    | call name args => exact decimals_callSymbols name args labels.call
    | «return» =>
      show decimals (["LCL", "R13"] ++ toString 5 :: ["R14", "SP", "ARG", "ARG", "SP", "R13",
        "THAT", "R13", "THIS", "R13", "ARG", "R13", "LCL", "R14"]) = _
      rw [decimals_append, decimals_cons_toString, decimals_cells (by decide),
        decimals_cells (by decide)]
      rfl

/-! ### What the lines are loaded as -/

section Loaded

variable {before after : List String} {annotate : Bool} {ls : List Line} {p : Machine.Program}

/-- A line that loads a name is loaded as what the name stands for, and its symbol is one of the
text. -/
theorem code_of_load_line (hload : load (before ++ printed annotate ls ++ after) = .ok p)
    {j : Nat} {name : String} (hj : (kept annotate ls)[j]? = some (Template.load name))
    (hname : IsTargetName name) :
    p.code[codeSize (before ++ (printed annotate ls).take j)]? =
        some (.address (p.valueIn (before ++ printed annotate ls ++ after) name)) ∧
      name ∈ (readText (before ++ printed annotate ls ++ after)).filterMap Line.symbol? := by
  have hline : (printed annotate ls)[j]? = some (Template.load name).text := by
    rw [printed, List.getElem?_map, hj]
    rfl
  have hread : readText [(Template.load name).text] = [Template.load name] :=
    congrArg (fun l => [l]) (ofText_text (l := Template.load name) hname)
  have hsplit : before ++ printed annotate ls ++ after =
      (before ++ (printed annotate ls).take j) ++ [(Template.load name).text] ++
        ((printed annotate ls).drop (j + 1) ++ after) := by
    conv_lhs => rw [eq_take_append_drop hline]
    simp only [List.append_assoc]
  have hfirst : (commands (readText [(Template.load name).text]))[0]? = some (.address name) := by
    rw [hread]
    rfl
  rw [hsplit] at hload ⊢
  constructor
  · exact code_of_load_append hload hfirst
  · rw [readText_append, readText_append, hread, List.filterMap_append, List.filterMap_append]
    exact List.mem_append_left _ (List.mem_append_right _ List.mem_cons_self)

/-- A number of 16 bits is no variable. -/
theorem toString_notMem_openSymbols (lines : List String) {n : Nat} (h : n < 65536) :
    toString n ∉ openSymbols lines := by
  have hread : (readAddress (toString n).toList).isNone = false := by
    rw [readAddress_toString, if_pos h]
    rfl
  intro hmem
  have hopen := (List.mem_filter.mp (List.mem_eraseDups.mp hmem)).2
  rw [hread, Bool.false_and, Bool.false_and] at hopen
  cases hopen

/-- A number of more than 16 bits is a variable, unless its digits are declared as a label. -/
theorem valueIn_toString_of_le {lines : List String} (hload : load lines = .ok p) {n : Nat}
    (hn : 65536 ≤ n) (hused : toString n ∈ (readText lines).filterMap Line.symbol?)
    (hlabel : toString n ∉ (readText lines).filterMap Line.label?) :
    toString n ∈ openSymbols lines ∧
      p.valueIn lines (toString n) =
        BitVec.ofNat 16 (16 + (openSymbols lines).idxOf (toString n)) := by
  have hnumber : readAddress (toString n).toList = none := by
    rw [readAddress_toString, if_neg (Nat.not_lt_of_le hn)]
  obtain ⟨layout, hlayout, hp⟩ := exists_layout_of_load hload
  have hnone : fixed? p.labels (toString n) = none := by
    rw [fixed?_eq hnumber (predefined?_toString n), hp]
    exact label_eq_none hlayout hlabel
  refine ⟨mem_openSymbols hload hused hnone, ?_⟩
  rw [Program.valueIn, symbolValue, hnone, Option.getD_none, hp,
    variableNames_eq_openSymbols hlayout]

/-- The lines of a call may stand anywhere in a text that is loaded. Begun at the first of them, the
machine reaches what the name called stands for. The local words then begin above the frame, and
the arguments below it by what the size of the frame stands for. -/
theorem reaches_call {scope : Scope} {labels : Labels} {name : String} {args : UInt16}
    (hload : load (before ++ printed annotate (Instruction.code scope labels (.call name args)) ++
      after) = .ok p) (hname : isSymbol name) {s : State} (hpc : s.pc = codeSize before)
    (hlow : 16 ≤ s.sp) (hhigh : s.sp + 5 ≤ 32768) :
    ∃ t, Reaches p s t ∧
      t.pc = (p.valueIn (before ++ printed annotate (Instruction.code scope labels
        (.call name args)) ++ after) name).toNat ∧
      t.sp = s.sp + 5 ∧ t.peek 1 = s.peek 0 + 5 ∧
      t.peek 2 = s.peek 0 + 5 - p.valueIn (before ++ printed annotate (Instruction.code scope labels
        (.call name args)) ++ after) (toString (args.toNat + 5)) := by
  have hlegal : (Block.instruction ⟨"Main", none⟩ labels (.call name args)).Legal := by
    refine ⟨by decide, by decide, ?_⟩
    show (readSymbol name).map (fun _ => ()) = .ok ()
    rw [readSymbol, if_pos hname]
    rfl
  have hproper : ∀ l ∈ Instruction.code scope labels (.call name args), l.Proper :=
    fun l hl => proper_of_mem_code hlegal hl
  have hcode := codeAt_of_load hload hproper
  have hstandard : Standard (p.valueIn (before ++ printed annotate (Instruction.code scope labels
    (.call name args)) ++ after)) := standard_symbolValue _ _
  -- nothing is used of what the symbols stand for but that the cells have their places
  generalize p.valueIn _ = value at hcode hstandard ⊢
  rw [Instruction.code, ops_framed, ← hpc] at hcode
  obtain ⟨m, hm⟩ := exists_call s.memory (value (returnLabel name labels.call))
    (value (toString (args.toNat + 5))) (Nat.le_of_succ_le hlow) hhigh
  obtain ⟨-, hsp, hlcl, harg, -, -⟩ := call_spec hm (Nat.le_of_succ_le hlow)
  have hexecute := execute_call hstandard name args labels.call s.memory s.a s.d s.pc
  rw [hm] at hexecute
  obtain ⟨t, ht, hresult⟩ := Option.map_eq_some_iff.mp hexecute
  have hmemory : t.memory = m := congrArg Prod.fst hresult
  have htop : BitVec.ofNat 16 (s.sp + 5) = s.peek 0 + 5 := by
    rw [BitVec.ofNat_add, ← word_sp s.memory s.sp rfl]
    rfl
  subst hmemory
  exact ⟨t, reaches_of_execute hcode (List.all_eq_true.mp rfl) ht, congrArg Prod.snd hresult, hsp,
    hlcl.trans htop, harg.trans (congrArg (· - _) htop)⟩

/-- The symbols of digits in a block are its numbers, and the name that it calls if that is one. In
a loaded text each line of the block that loads a number of 16 bits is loaded as that number, and
the number is no variable. Larger than that is only the size of the frame of a call with 65531
arguments or more, and it is a variable unless its digits are declared as a label. A call of
anything with fewer arguments leaves the base of the arguments below the stack by their number, and
any call the base of the local words above it. -/
theorem numbers_keep_value {b : Block} {lines : List String}
    (hlines : lines = before ++ printed annotate b.code ++ after) (hload : load lines = .ok p) :
    decimals (b.code.filterMap Line.symbol?) =
        b.numbers.map toString ++ decimals b.callee?.toList ∧
      (∀ n ∈ b.numbers, n < 65536 ∨ ∃ scope labels name args,
        b = .instruction scope labels (.call name args) ∧ 65531 ≤ args.toNat) ∧
      (∀ j n, (kept annotate b.code)[j]? = some (loadNumber n) →
        ∃ w, p.code[codeSize (before ++ (printed annotate b.code).take j)]? = some (.address w) ∧
          (n < 65536 → w = BitVec.ofNat 16 n ∧ toString n ∉ openSymbols lines) ∧
          (65536 ≤ n → toString n ∉ (readText lines).filterMap Line.label? →
            toString n ∈ openSymbols lines ∧
              w = BitVec.ofNat 16 (16 + (openSymbols lines).idxOf (toString n)))) ∧
      ∀ scope labels name args, b = .instruction scope labels (.call name args) → isSymbol name →
        ∀ s : State, s.pc = codeSize before → 16 ≤ s.sp → s.sp + 5 ≤ 32768 →
          ∃ t, Reaches p s t ∧ t.pc = (p.valueIn lines name).toNat ∧ t.sp = s.sp + 5 ∧
            t.peek 1 = s.peek 0 + 5 ∧
            t.peek 2 = s.peek 0 + 5 - p.valueIn lines (toString (args.toNat + 5)) ∧
            (args.toNat ≤ 65530 → t.peek 2 = s.peek 0 - args.toBitVec) := by
  subst hlines
  have hstandard : Standard (p.valueIn (before ++ printed annotate b.code ++ after)) :=
    standard_symbolValue _ _
  refine ⟨decimals_code b, fun n hn => lt_of_mem_numbers hn, ?_, ?_⟩
  · intro j n hj
    obtain ⟨hcode, hused⟩ := code_of_load_line hload hj (isTargetName_toString n)
    refine ⟨_, hcode, ?_, ?_⟩
    · intro hn
      exact ⟨hstandard.number n hn, toString_notMem_openSymbols _ hn⟩
    · intro hn hlabel
      exact valueIn_toString_of_le hload hn hused hlabel
  · rintro scope labels name args rfl hname s hpc hlow hhigh
    obtain ⟨t, hreaches, hplace, hsp, hlcl, harg⟩ := reaches_call hload hname hpc hlow hhigh
    refine ⟨t, hreaches, hplace, hsp, hlcl, harg, ?_⟩
    intro hargs
    have hdepth : BitVec.ofNat 16 (args.toNat + 5) = args.toBitVec + 5 := by
      rw [BitVec.ofNat_add]
      exact congrArg (· + 5) (BitVec.eq_of_toNat_eq (by simp))
    -- only here do the arguments have to be few: the size of the frame is a number of 16 bits
    have hvalue := hstandard.number (args.toNat + 5) (by omega)
    rw [hdepth] at hvalue
    refine harg.trans ((congrArg (s.peek 0 + 5 - ·) hvalue).trans ?_)
    bv_omega

end Loaded

/-- The most arguments that a frame can be reckoned for. -/
theorem numbers_keep_value_call :
    ∃ p, Machine.load ([] ++
        printed true (Block.instruction ⟨"Main", none⟩ {} (.call "F" 65530)).code ++ ["(F)"]) =
          .ok p ∧
      p.code[37]? = some (.address 65535) ∧
      ∃ s t : State, s.pc = 0 ∧ s.sp = 256 ∧ Reaches p s t ∧ t.sp = 261 ∧ t.peek 1 = 261 ∧
        t.peek 2 = 262 := by
  obtain ⟨p, hload⟩ := exists_load_of_isOk ([] ++
    printed true (Block.instruction ⟨"Main", none⟩ {} (.call "F" 65530)).code ++ ["(F)"])
    (by decide +kernel)
  have hzero : (State.initial.poke 0 256).peek 0 = 256 := peek_poke _ _ (by decide) 0
  have hsp : (State.initial.poke 0 256).sp = 256 := congrArg BitVec.toNat hzero
  obtain ⟨-, -, hnumbers, hcall⟩ := numbers_keep_value rfl hload
  obtain ⟨w, hw, hvalue, -⟩ := hnumbers 38 65535 rfl
  obtain ⟨t, hreaches, -, htop, hlcl, -, harg⟩ := hcall _ _ _ _ rfl (by decide)
    (State.initial.poke 0 256) rfl (by omega) (by omega)
  have hplace : codeSize ([] ++ (printed true
      (Block.instruction ⟨"Main", none⟩ {} (.call "F" 65530)).code).take 38) = 37 := by
    decide +kernel
  rw [hplace, (hvalue (by omega)).1] at hw
  rw [hsp] at htop
  rw [hzero] at hlcl
  refine ⟨p, hload, hw, _, t, rfl, hsp, hreaches, htop, hlcl, ?_⟩
  rw [harg (by decide), hzero]
  rfl

/-- A unit with a call whose frame has 65536 words. -/
def callsWithMany : SourceUnit :=
  ⟨"Main", [⟨1, .call "F" 65531⟩, ⟨2, .function "F" 0⟩]⟩

/-- The size of the frame is loaded as the address of the first variable, and that is what the base
of the arguments lies below the local words. -/
theorem call_of_65531_arguments :
    ∃ lines p, (translate { bootstrap := false } [callsWithMany]).value = .ok lines ∧
      Machine.load lines = .ok p ∧ lines[38]? = some "@65536" ∧ p.code[37]? = some (.address 16) ∧
      "65536" ∈ openSymbols lines ∧
      ∃ s t : State, s.pc = 0 ∧ s.sp = 256 ∧ Reaches p s t ∧ t.peek 1 = 261 ∧ t.peek 2 = 245 ∧
        s.peek 0 - (65531 : UInt16).toBitVec = 261 := by
  obtain ⟨lines, hlines⟩ :
      ∃ lines, (translate { bootstrap := false } [callsWithMany]).value = .ok lines := ⟨_, rfl⟩
  obtain ⟨p, hload⟩ := (exists_load_iff (by decide) hlines).mpr ⟨by decide, by decide⟩
  have hzero : (State.initial.poke 0 256).peek 0 = 256 := peek_poke _ _ (by decide) 0
  have hsp : (State.initial.poke 0 256).sp = 256 := congrArg BitVec.toNat hzero
  have hsplit : lines = [] ++
      printed true (Instruction.code ⟨"Main", none⟩ {} (.call "F" 65531)) ++
        printed true (Instruction.code ⟨"Main", some "F"⟩ { call := 1 } (.function "F" 0)) := by
    cases hlines
    rfl
  have hplaces : codeSize ([] ++ (printed true
      (Instruction.code ⟨"Main", none⟩ {} (.call "F" 65531))).take 38) = 37 ∧
      (openSymbols lines).idxOf (toString 65536) = 0 ∧
      toString 65536 ∉ (readText lines).filterMap Line.label? := by
    cases hlines
    decide +kernel
  obtain ⟨hplace, hidx, hlabel⟩ := hplaces
  have hline : lines[38]? = some "@65536" := by
    rw [hsplit]
    rfl
  have hparts := hload
  rw [hsplit] at hparts
  obtain ⟨hcode, hused⟩ := code_of_load_line hparts (j := 38) rfl (isTargetName_toString 65536)
  obtain ⟨t, hreaches, -, -, hlcl, harg⟩ := reaches_call hparts (by decide)
    (s := State.initial.poke 0 256) rfl (by rw [hsp]; omega) (by rw [hsp]; omega)
  rw [← hsplit] at hcode hused harg
  obtain ⟨hopen, hvalue⟩ := valueIn_toString_of_le hload (le_refl 65536) hused hlabel
  rw [hidx] at hvalue
  rw [hplace] at hcode
  rw [hzero] at hlcl harg
  refine ⟨lines, p, hlines, hload, hline, ?_, hopen, _, t, rfl, hsp, hreaches, hlcl, ?_, ?_⟩
  · exact hcode.trans (congrArg (fun w => some (Op.address w)) hvalue)
  · exact harg.trans (congrArg ((256 : Word) + 5 - ·) hvalue)
  · rw [hzero]
    rfl

end HackVm
