/-
The form of the lines of a program.

A line of assembly is a comment, a label, the load of a name or of a number, or a computation that
the machine knows (`IsAssembly`). The names of units and those in instructions are checked before
anything is written, so the code of an instruction has only such lines (`isAssembly_of_mem_code`).
The entry is not checked. It stands on three lines of the code that begins a program
(`entryLines`), and these have the form if and only if the entry is a name or a number:

* **`isAssembly_translated`** — the lines of a program that translates have the form, unless it
  begins with a call of an entry that is neither; no other line than the three is then amiss;
* **`entry_with_blank_translated`** — such an entry is not refused.
-/
import HackVm.Proofs.GeneratedLabels

namespace HackVm

open Assembly Machine Template

/-! ### Names and numbers -/

/-- A name of the target machine: characters of symbols and dollar signs, the first one no digit. -/
structure IsTarget (name : String) : Prop where
  chars : IsTargetName name
  first : ∃ c, name.toList.head? = some c ∧ ¬ c.isDigit

/-- A number in decimal digits. -/
def IsDecimal (text : String) : Prop :=
  text.toList ≠ [] ∧ ∀ c ∈ text.toList, c.isDigit

/-- What may be loaded into the address register. -/
def IsOperand (text : String) : Prop :=
  IsTarget text ∨ IsDecimal text

theorem IsOperand.chars {text : String} (h : IsOperand text) : IsTargetName text := by
  rcases h with h | h
  · exact h.chars
  · intro c hc
    exact .inl (isSymbolChar_of_isDigit (h.2 c hc))

/-- A name that begins with a symbol begins with no digit. -/
theorem isTarget_append {name rest : String} (h : isSymbol name)
    (hchars : IsTargetName (name ++ rest)) : IsTarget (name ++ rest) := by
  obtain ⟨c, tail, hname, -, hdigit⟩ := exists_cons_of_isSymbol h
  refine ⟨hchars, c, ?_, hdigit⟩
  rw [String.toList_append, hname, List.cons_append, List.head?_cons]

theorem isTarget_of_isSymbol {name : String} (h : isSymbol name) : IsTarget name := by
  have hchars : IsTargetName (name ++ "") := by simpa using isTargetName_of_isSymbol h
  simpa using isTarget_append h hchars

theorem isTarget_of_isMadeUp {name : String} (hmade : IsMadeUp name) (h : IsTargetName name) :
    IsTarget name :=
  ⟨h, '$', hmade, by decide⟩

theorem isDecimal_toString (n : Nat) : IsDecimal (toString n) := by
  refine ⟨?_, fun c hc => isDigit_of_mem_toString hc⟩
  simp [Nat.toDigits_ne_nil]

/-! ### Lines -/

/-- A line of assembly. A computation is one that the machine reads, with a jump that it knows. -/
inductive IsAssembly : String → Prop where
  | comment (text : String) : IsAssembly ("// " ++ text)
  | label {name : String} (h : IsTarget name) : IsAssembly ("(" ++ name ++ ")")
  | load {text : String} (h : IsOperand text) : IsAssembly ("@" ++ text)
  | compute {line : String} {dest : Dest} {comp : Comp} {jump : Jump}
      (hload : line.toList.head? ≠ some '@')
      (hread : readCompute? line.toList = some (.compute dest comp jump))
      (hjump : ∀ condition, jump ≠ .unknown condition) : IsAssembly line

/-- A line that begins with an at sign has the form if it loads a name or a number, and not
otherwise. -/
theorem isAssembly_load_iff {text : String} : IsAssembly ("@" ++ text) ↔ IsOperand text := by
  constructor
  · intro h
    generalize hline : "@" ++ text = line at h
    have hchars : line.toList = '@' :: text.toList := by rw [← hline]; simp
    cases h with
    | comment title => simp at hchars
    | label hname => simp at hchars
    | load hother =>
      rename_i other
      obtain rfl : other = text := String.toList_inj.mp (by simpa using hchars)
      exact hother
    | compute hload => exact absurd (by rw [hchars, List.head?_cons]) hload
  · exact .load

theorem isAssembly_compute (dest : Dest) (comp : Comp) {jump : Jump}
    (h : ∀ condition, jump ≠ .unknown condition) :
    IsAssembly (Command.compute dest comp jump).text := by
  obtain ⟨c, rest, htext, -, -, hat⟩ := head?_command_text dest comp jump
  refine .compute ?_ (readCompute?_text dest comp h) h
  rw [htext, List.head?_cons]
  exact fun heq => hat (Option.some.inj heq)

/-- The text of a line has the form if the names on it do. -/
theorem isAssembly_text {l : Line} (hknown : l.isKnown)
    (hlabel : ∀ name, l.label? = some name → IsTarget name)
    (hsymbol : ∀ text, l.symbol? = some text → IsOperand text) : IsAssembly l.text := by
  cases l with
  | opening title => exact .comment title
  | closing title =>
    have htext : (Line.closing title).text = "// " ++ ("~" ++ title) := by
      rw [← String.toList_inj]
      simp [Line.text]
    exact htext ▸ .comment ("~" ++ title)
  | label name => exact .label (hlabel name rfl)
  | verbatim text => cases hknown
  | command c =>
    cases c with
    | address symbol => exact .load (hsymbol symbol rfl)
    | compute dest comp jump =>
      refine isAssembly_compute dest comp ?_
      rintro condition rfl
      cases hknown

theorem text_of_label? {l : Line} {name : String} (h : l.label? = some name) :
    l.text = "(" ++ name ++ ")" := by
  unfold Line.label? at h
  split at h <;> cases h
  rfl

theorem text_of_symbol? {l : Line} {text : String} (h : l.symbol? = some text) :
    l.text = "@" ++ text := by
  unfold Line.symbol? at h
  split at h <;> cases h
  rfl

/-! ### Blocks -/

section Blocks

variable {b : Block} {name : String} {l : Line}

/-- What a legal block loads is a name or a number. -/
theorem isOperand_of_refers (hb : b.Legal) (h : b.Refers name) : IsOperand name := by
  have hchars := isTargetName_of_refers hb h
  rcases h with hcell | ⟨n, -, rfl⟩ | htemp | hvariable | htarget | hcallee | hmade
  · have hall : ∀ cell ∈ templateCells, isSymbol cell := by decide
    exact .inl (isTarget_of_isSymbol (hall name hcell))
  · exact .inr (isDecimal_toString n)
  · have hletter : isSymbol "R" := by decide
    unfold Block.temp? at htemp
    split at htemp <;> cases htemp <;> exact .inl (isTarget_append hletter hchars)
  · rcases static_or_number_of_varName? hvariable with hstatic | ⟨n, rfl⟩
    · obtain ⟨scope, hscope, i, rfl⟩ := exists_static_of_static? hb hstatic
      rw [Scope.static, String.append_assoc] at hchars ⊢
      exact .inl (isTarget_append hscope hchars)
    · exact .inr (isDecimal_toString n)
  · obtain ⟨scope, hscope, l, rfl⟩ := exists_label_of_target? hb htarget
    rw [Scope.label, String.append_assoc] at hchars ⊢
    exact .inl (isTarget_append hscope hchars)
  · exact .inl (isTarget_of_isSymbol (isSymbol_of_callee? hb hcallee))
  · exact .inl (isTarget_of_isMadeUp (isMadeUp_of_mem_madeUp hmade) hchars)

/-- What a legal block declares is a name. -/
theorem isTarget_of_mem_label? (hb : b.Legal) (h : name ∈ b.code.filterMap Line.label?) :
    IsTarget name := by
  have hchars := isTargetName_of_mem_label? hb h
  rw [filterMap_label?_code, List.mem_append, List.mem_append, Option.mem_toList,
    Option.mem_toList] at h
  rcases h with (hfunction | hlabel) | hmade
  · exact isTarget_of_isSymbol (isSymbol_of_function? hb hfunction)
  · obtain ⟨scope, hscope, l, rfl⟩ := exists_label_of_label? hb hlabel
    rw [Scope.label, String.append_assoc] at hchars ⊢
    exact isTarget_append hscope hchars
  · exact isTarget_of_isMadeUp (isMadeUp_of_mem_madeUp hmade) hchars

/-- The lines of a legal block have the form. -/
theorem isAssembly_of_mem_code (hb : b.Legal) (hl : l ∈ b.code) : IsAssembly l.text := by
  refine isAssembly_text (isKnown_of_mem_code hl) ?_ ?_
  · intro name hname
    exact isTarget_of_mem_label? hb (List.mem_filterMap.mpr ⟨l, hl, hname⟩)
  · intro name hname
    exact isOperand_of_refers hb (refers_of_mem_symbols (List.mem_filterMap.mpr ⟨l, hl, hname⟩))

/-! ### The code that begins a program -/

/-- The lines on which the code that begins a program has its entry: two loads and a label. -/
def entryLines (entry : String) : List String :=
  ["@" ++ entry, "@" ++ returnLabel entry 0, "(" ++ returnLabel entry 0 ++ ")"]

/-- The lines of the code that begins a program have the form, those with the entry aside. -/
theorem isAssembly_or_mem_entryLines {base : UInt16} {entry : String}
    (hl : l ∈ (Block.bootstrap base entry 0).code) :
    IsAssembly l.text ∨ l.text ∈ entryLines entry := by
  by_cases hentry : l.text ∈ entryLines entry
  · exact .inr hentry
  refine .inl (isAssembly_text (isKnown_of_mem_code hl) ?_ ?_)
  · intro name hname
    have hmem := List.mem_filterMap.mpr ⟨l, hl, hname⟩
    rw [filterMap_label?_code] at hmem
    obtain rfl : name = returnLabel entry 0 := List.mem_singleton.mp hmem
    exact absurd (by rw [text_of_label? hname]; simp [entryLines]) hentry
  · intro name hname
    have htext := text_of_symbol? hname
    have hrefers := refers_of_mem_symbols (List.mem_filterMap.mpr ⟨l, hl, hname⟩)
    rcases hrefers with hcell | ⟨n, -, rfl⟩ | htemp | hvariable | htarget | hcallee | hmade
    · have hall : ∀ cell ∈ templateCells, isSymbol cell := by decide
      exact .inl (isTarget_of_isSymbol (hall name hcell))
    · exact .inr (isDecimal_toString n)
    · cases htemp
    · cases hvariable
    · cases htarget
    · obtain rfl : entry = name := Option.some.inj hcallee
      exact absurd (by rw [htext]; simp [entryLines]) hentry
    · obtain rfl : name = returnLabel entry 0 := List.mem_singleton.mp hmade
      exact absurd (by rw [htext]; simp [entryLines]) hentry

end Blocks

theorem isAssembly_of_mem_entryLines {entry line : String} (h : IsOperand entry)
    (hline : line ∈ entryLines entry) : IsAssembly line := by
  have hreturn : IsTarget (returnLabel entry 0) := by
    refine isTarget_of_isMadeUp (isMadeUp_returnLabel entry 0) ?_
    have hdollar : IsTargetName "$" := List.all_iff_forall_prop.mp (by decide)
    have hret : IsTargetName "$ret." := List.all_iff_forall_prop.mp (by decide)
    exact isTargetName_append (isTargetName_append (isTargetName_append hdollar h.chars) hret)
      (isTargetName_toString 0)
  simp only [entryLines, List.mem_cons, List.not_mem_nil, or_false] at hline
  rcases hline with rfl | rfl | rfl
  · exact .load h
  · exact .load (.inl hreturn)
  · exact .label hreturn

/-! ### Programs -/

/-- The name that an instruction gives or refers to. -/
def Instruction.name? : Instruction → Option String
  | .label name | .goto name | .ifGoto name | .function name _ | .call name _ => some name
  | _ => none

theorem isSymbol_of_name? {i : Instruction} (hi : i.check = .ok ()) {name : String}
    (h : i.name? = some name) : isSymbol name := by
  unfold Instruction.name? at h
  split at h <;> cases h <;> exact isSymbol_of_readSymbol hi

/-- In a program that translates the names of units and those in instructions are symbols. Its
lines have the form if and only if it does not begin with a call of an entry that is neither a name
nor a number, and in any case all of them do, the three with the entry aside. -/
theorem isAssembly_translated {options : Options} {units : List SourceUnit} {lines : List String}
    (h : (translate options units).value = .ok lines) :
    (∀ u ∈ units, isSymbol u.name ∧
      ∀ i ∈ u.instructions, ∀ name, i.name? = some name → isSymbol name) ∧
    ((∀ line ∈ lines, IsAssembly line) ↔ (options.bootstrap → IsOperand options.entry)) ∧
    ∀ line ∈ lines,
      IsAssembly line ∨ (options.bootstrap ∧ line ∈ entryLines options.entry) := by
  obtain ⟨hlegal, -, rfl⟩ := translate_eq_ok_iff.mp h
  have hlines : ∀ line ∈ printed options.annotate ((program options units).flatMap Block.code),
      IsAssembly line ∨ (options.bootstrap ∧ line ∈ entryLines options.entry) := by
    intro line hline
    obtain ⟨l, hl, rfl⟩ := List.mem_map.mp hline
    obtain ⟨b, hb, hl⟩ := List.mem_flatMap.mp (mem_of_mem_kept hl)
    unfold program at hb
    split at hb
    · rename_i hbootstrap
      rcases List.mem_cons.mp hb with rfl | hb
      · exact (isAssembly_or_mem_entryLines hl).imp_right fun hentry => ⟨hbootstrap, hentry⟩
      · exact .inl (isAssembly_of_mem_code (legal_of_mem_programFrom hlegal b hb) hl)
    · exact .inl (isAssembly_of_mem_code (legal_of_mem_programFrom hlegal b hb) hl)
  refine ⟨?_, ⟨?_, ?_⟩, hlines⟩
  · intro u hu
    refine ⟨(hlegal u hu).1, ?_⟩
    intro i hi name hname
    exact isSymbol_of_name? ((hlegal u hu).2 i hi) hname
  · -- the entry is loaded by one of the lines
    intro hall hbootstrap
    refine isAssembly_load_iff.mp (hall _ (text_mem_printed (l := load options.entry) ?_ rfl))
    rw [program, if_pos hbootstrap, List.flatMap_cons]
    refine List.mem_append_left _ ?_
    simp [Block.code, bootstrap, framed, call]
  · intro hentry line hline
    rcases hlines line hline with hform | ⟨hbootstrap, hmem⟩
    · exact hform
    · exact isAssembly_of_mem_entryLines (hentry hbootstrap) hmem

/-- A unit with names of every kind. -/
def namesOfEveryKind : SourceUnit :=
  ⟨"Main", [⟨1, .function "Sys.init" 1⟩, ⟨2, .label "LOOP"⟩, ⟨3, .pushStatic 0⟩, ⟨4, .compare .eq⟩,
    ⟨5, .ifGoto "LOOP"⟩, ⟨6, .call "Sys.init" 0⟩, ⟨7, .goto "LOOP"⟩]⟩

theorem isAssembly_translated_namesOfEveryKind :
    ∃ lines, (translate {} [namesOfEveryKind]).value = .ok lines ∧
      ∀ line ∈ lines, IsAssembly line := by
  obtain ⟨lines, h⟩ : ∃ lines, (translate {} [namesOfEveryKind]).value = .ok lines := ⟨_, rfl⟩
  refine ⟨lines, h, (isAssembly_translated h).2.1.mpr ?_⟩
  intro _
  exact .inl (isTarget_of_isSymbol (by decide))

/-- An entry with a blank in it is not refused, and it is loaded as it is. -/
theorem entry_with_blank_translated :
    ∃ lines, (translate { entry := "Sys init" } []).value = .ok lines ∧
      "@" ++ "Sys init" ∈ lines ∧ ¬ isSymbol "Sys init" ∧ ¬ IsAssembly ("@" ++ "Sys init") := by
  obtain ⟨lines, h⟩ : ∃ lines, (translate { entry := "Sys init" } []).value = .ok lines := ⟨_, rfl⟩
  refine ⟨lines, h, ?_, by decide, ?_⟩
  · cases h
    decide +kernel
  · rw [isAssembly_load_iff]
    intro hoperand
    have hblank := hoperand.chars ' ' (by decide)
    exact absurd hblank (by decide)

end HackVm
