/-
Names of the program that meet.

A function is declared under its own name, and that may also be the name of a static word
or of a cell. In a loaded program a name stands for what it was meant to, or it is such a
name:

* **`target_resolves`** — every line that loads a declared name is loaded as the place of the
  declaration, unless the name is that of a cell; then it is loaded as the cell, and a function has
  that name;
* **`static_meets_function`** — a static word is declared as a label if and only if a function has
  its name; if none has, every line that loads it is loaded as the address of a variable, and
  otherwise as the place of the function.

Both exceptions occur: in `callsCell` a call jumps to the address of a cell, and in
`clashing` a static word is a place in the code.
-/
import HackVm.Proofs.FixedCells

namespace HackVm

open Assembly Machine

/-! ### Lines and places -/

/-- The code lines among lines of the translator are as many as the commands that are read there. -/
theorem countP_isCodeLine_eq {texts : List String}
    (h : ∀ text ∈ texts, ∃ l : Line, l.Proper ∧ l.text = text) :
    texts.countP isCodeLine = (commands (readText texts)).length := by
  rw [commands, readText, List.filterMap_map, List.length_filterMap_eq_countP]
  refine List.countP_congr ?_
  intro text htext
  obtain ⟨l, hl, rfl⟩ := h text htext
  rw [Function.comp_apply, ofText_text hl, isCodeLine_text hl]
  -- a comment is read as nothing, and nothing else is
  cases l <;> rfl

section Translated

variable {options : Options} {units : List SourceUnit} {lines : List String}
  {p : Machine.Program} {name : String}

/-- Every line of a translated program is the text of a proper one. -/
theorem exists_proper_of_mem (hentry : isSymbol options.entry)
    (h : (translate options units).value = .ok lines) {text : String} (ht : text ∈ lines) :
    ∃ l : Line, l.Proper ∧ l.text = text := by
  obtain ⟨hlegal, -, rfl⟩ := translate_eq_ok_iff.mp h
  obtain ⟨l, hl, rfl⟩ := List.mem_map.mp ht
  exact ⟨l, proper_of_mem_flatMap (legal_of_mem_program hentry hlegal) l (mem_of_mem_kept hl), rfl⟩

/-- The number of commands before a line is the number of code lines before it. -/
theorem countP_take_eq (hentry : isSymbol options.entry)
    (h : (translate options units).value = .ok lines) (n : Nat) :
    (lines.take n).countP isCodeLine = (commands (readText (lines.take n))).length :=
  countP_isCodeLine_eq fun _ ht => exists_proper_of_mem hentry h (List.mem_of_mem_take ht)

/-- A line that loads a name is loaded as what the name stands for. -/
theorem code_of_address_line (hentry : isSymbol options.entry)
    (h : (translate options units).value = .ok lines) (hload : load lines = .ok p) {n : Nat}
    (huse : lines[n]? = some ("@" ++ name)) :
    p.code[(lines.take n).countP isCodeLine]? = some (.address (p.valueIn lines name)) := by
  obtain ⟨l, hl, htext⟩ := exists_proper_of_mem hentry h (List.mem_of_getElem? huse)
  have hcommand : l = .command (.address name) := by
    have hsymbol := (text_eq_address_iff hl name).mp htext
    unfold Line.symbol? at hsymbol
    split at hsymbol <;> cases hsymbol
    rfl
  subst hcommand
  have hread : (commands (readText ["@" ++ name]))[0]? = some (.address name) := by
    rw [← htext, readText, List.map_singleton, ofText_text hl]
    rfl
  rw [countP_take_eq hentry h]
  -- the command is the first behind those that are read before its line
  have hsplit := eq_take_append_drop huse
  rw [hsplit] at hload
  have hcode := code_of_load_append hload hread
  rwa [← hsplit] at hcode

/-- A line that declares a name makes it the name of the place behind the code lines before it. -/
theorem label_of_label_line (hentry : isSymbol options.entry)
    (h : (translate options units).value = .ok lines) (hload : load lines = .ok p) {m : Nat}
    (hdefined : lines[m]? = some ("(" ++ name ++ ")")) :
    p.labels[name]? = some (BitVec.ofNat 16 ((lines.take m).countP isCodeLine)) := by
  obtain ⟨l, hl, htext⟩ := exists_proper_of_mem hentry h (List.mem_of_getElem? hdefined)
  have hlabel : l = .label name := by
    have hlabel := (text_eq_label_iff hl name).mp htext
    unfold Line.label? at hlabel
    split at hlabel <;> cases hlabel
    rfl
  subst hlabel
  have hread : readText lines =
      readText (lines.take m) ++ .label name :: readText (lines.drop (m + 1)) := by
    conv_lhs => rw [eq_take_append_drop hdefined]
    rw [readText_append, readText_append, ← htext, List.append_assoc]
    congr 1
    rw [readText, List.map_singleton, ofText_text hl]
    rfl
  obtain ⟨layout, hlayout, rfl⟩ := exists_layout_of_load hload
  rw [hread] at hlayout
  rw [countP_take_eq hentry h]
  exact label_eq hlayout

/-- What stands on a label line is declared by a block. -/
theorem label_mem_lines_iff (hentry : isSymbol options.entry)
    (h : (translate options units).value = .ok lines) :
    "(" ++ name ++ ")" ∈ lines ↔
      name ∈ ((program options units).flatMap Block.code).filterMap Line.label? := by
  obtain ⟨hlegal, -, rfl⟩ := translate_eq_ok_iff.mp h
  exact label_mem_printed_iff (proper_of_mem_flatMap (legal_of_mem_program hentry hlegal))

/-! ### Declared names -/

/-- A name on a label line stands for the place behind the code lines before it, unless it is the
name of a cell. Then it stands for the cell, and a function has that name. -/
theorem valueIn_of_label_line (hentry : isSymbol options.entry)
    (h : (translate options units).value = .ok lines) (hload : load lines = .ok p) {m : Nat}
    (hdefined : lines[m]? = some ("(" ++ name ++ ")")) :
    match predefined? name with
    | none => p.valueIn lines name = BitVec.ofNat 16 ((lines.take m).countP isCodeLine)
    | some cell => p.valueIn lines name = cell ∧
        name ∈ (program options units).filterMap Block.function? := by
  have hlegal := legal_of_mem_program hentry (translate_eq_ok_iff.mp h).1
  have hdeclared := (label_mem_lines_iff hentry h).mp (List.mem_of_getElem? hdefined)
  cases hcell : predefined? name with
  | none =>
    have hfixed := fixed?_of_declared hlegal hdeclared (fun _ => hcell) p.labels
    rw [label_of_label_line hentry h hload hdefined] at hfixed
    exact symbolValue_of_fixed? hfixed
  | some cell =>
    obtain ⟨hfixed, hfunction⟩ := fixed?_of_declared_cell hlegal hdeclared hcell p.labels
    exact ⟨symbolValue_of_fixed? hfixed, hfunction⟩

/-- In a loaded program that fits into the memory for instructions, a line that loads a declared
name is loaded as the place of the declaration, unless the name is that of a cell. Then it is
loaded as the cell, and the name is declared by a function. -/
theorem target_resolves (hentry : isSymbol options.entry)
    (h : (translate options units).value = .ok lines) (hload : load lines = .ok p)
    (hfits : lines.countP isCodeLine ≤ 65535) {m n : Nat}
    (hdefined : lines[m]? = some ("(" ++ name ++ ")")) (huse : lines[n]? = some ("@" ++ name)) :
    ∃ w, p.code[(lines.take n).countP isCodeLine]? = some (.address w) ∧
      (predefined? name = none → w.toNat = (lines.take m).countP isCodeLine) ∧
      ∀ cell, predefined? name = some cell →
        w = cell ∧ name ∈ (program options units).filterMap Block.function? := by
  have hvalue := valueIn_of_label_line hentry h hload hdefined
  refine ⟨p.valueIn lines name, code_of_address_line hentry h hload huse, ?_, ?_⟩
  · intro hcell
    have hplace : (lines.take m).countP isCodeLine ≤ 65535 :=
      ((List.take_sublist m lines).countP_le).trans hfits
    rw [hcell] at hvalue
    rw [hvalue, BitVec.toNat_ofNat, Nat.mod_eq_of_lt (by omega)]
  · intro cell hcell
    rw [hcell] at hvalue
    exact hvalue

end Translated

/-- The jump back to the beginning of a loop is loaded as the place of the loop. -/
theorem target_resolves_countdown :
    ∃ lines p, (translate { bootstrap := false } [countdown]).value = .ok lines ∧
      load lines = .ok p ∧ lines[10]? = some "(Main$LOOP)" ∧ lines[146]? = some "@Main$LOOP" ∧
      ∃ w, p.code[(lines.take 146).countP isCodeLine]? = some (.address w) ∧ w.toNat = 7 := by
  obtain ⟨lines, hlines⟩ :
      ∃ lines, (translate { bootstrap := false } [countdown]).value = .ok lines := ⟨_, rfl⟩
  obtain ⟨p, hload⟩ := (exists_load_iff (by decide) hlines).mpr ⟨by decide, by decide⟩
  have hfits : lines.countP isCodeLine ≤ 65535 ∧ (lines.take 10).countP isCodeLine = 7 := by
    cases hlines
    decide +kernel
  have hdefined : lines[10]? = some ("(" ++ "Main$LOOP" ++ ")") := by cases hlines; rfl
  have huse : lines[146]? = some ("@" ++ "Main$LOOP") := by cases hlines; rfl
  obtain ⟨w, hcode, hplace, -⟩ :=
    target_resolves (by decide) hlines hload hfits.1 hdefined huse
  exact ⟨lines, p, hlines, hload, hdefined, huse, w, hcode, (hplace (by decide)).trans hfits.2⟩

/-- A unit that calls a function with the name of a cell. -/
def callsCell : SourceUnit :=
  ⟨"Main", [⟨1, .call "SP" 0⟩, ⟨2, .function "SP" 0⟩]⟩

/-- The call jumps to address 0, and the function is at address 47. -/
theorem call_of_cell_is_cell :
    ∃ lines p, isSymbol ({ bootstrap := false } : Options).entry ∧
      (translate { bootstrap := false } [callsCell]).value = .ok lines ∧ load lines = .ok p ∧
      lines.countP isCodeLine ≤ 65535 ∧ lines[51]? = some "(SP)" ∧
      (lines.take 51).countP isCodeLine = 47 ∧ lines[46]? = some "@SP" ∧
      lines[47]? = some "0;JMP" ∧
      p.code[(lines.take 46).countP isCodeLine]? = some (.address 0) := by
  obtain ⟨lines, hlines⟩ :
      ∃ lines, (translate { bootstrap := false } [callsCell]).value = .ok lines := ⟨_, rfl⟩
  obtain ⟨p, hload⟩ := (exists_load_iff (by decide) hlines).mpr ⟨by decide, by decide⟩
  have huse : lines[46]? = some ("@" ++ "SP") := by cases hlines; rfl
  have hcell : fixed? p.labels "SP" = some 0 :=
    fixed?_of_predefined? _ (by decide) (by decide)
  have hcode := code_of_address_line (by decide) hlines hload huse
  rw [Program.valueIn, symbolValue_of_fixed? hcell] at hcode
  refine ⟨lines, p, by decide, hlines, hload, ?_, ?_, ?_, huse, ?_, hcode⟩ <;> cases hlines <;>
    decide +kernel

/-! ### Static words -/

section Translated

variable {options : Options} {units : List SourceUnit} {lines : List String} {name : String}

/-- A block that uses a static word loads its name. -/
theorem mem_symbols_of_static? {b : Block} (h : b.static? = some name) :
    name ∈ b.code.filterMap Line.symbol? := by
  unfold Block.static? at h
  split at h <;> cases h
  · exact List.mem_cons_self
  · exact List.mem_cons_of_mem _ List.mem_cons_self

/-- A static word that a program uses is declared as a label if and only if a function has its
name. If none has, every line that loads it is loaded as the address of a variable, and otherwise
every such line is loaded as the place of the declaration. -/
theorem static_meets_function (hentry : isSymbol options.entry)
    (h : (translate options units).value = .ok lines)
    (hname : name ∈ (program options units).filterMap Block.static?) :
    "@" ++ name ∈ lines ∧
      ("(" ++ name ++ ")" ∈ lines ↔ name ∈ (program options units).filterMap Block.function?) ∧
      ∀ p, load lines = .ok p → ∀ n, lines[n]? = some ("@" ++ name) →
        ∃ w, p.code[(lines.take n).countP isCodeLine]? = some (.address w) ∧
          (name ∉ (program options units).filterMap Block.function? →
            name ∈ openSymbols lines ∧
              w = BitVec.ofNat 16 (16 + (openSymbols lines).idxOf name)) ∧
          ∀ m, lines[m]? = some ("(" ++ name ++ ")") →
            w = BitVec.ofNat 16 ((lines.take m).countP isCodeLine) := by
  have hlegal := legal_of_mem_program hentry (translate_eq_ok_iff.mp h).1
  obtain ⟨b, hb, hstatic⟩ := List.mem_filterMap.mp hname
  have hsymbol := mem_symbols_of_static? hstatic
  obtain ⟨scope, hscope, i, rfl⟩ := exists_static_of_static? (hlegal b hb) hstatic
  -- the name stands on a line of its block, and so on one of the program
  have hused : scope.static i ∈
      ((program options units).flatMap Block.code).filterMap Line.symbol? := by
    obtain ⟨l, hl, hsymbol⟩ := List.mem_filterMap.mp hsymbol
    exact List.mem_filterMap.mpr ⟨l, List.mem_flatMap.mpr ⟨b, hb, hl⟩, hsymbol⟩
  have hlines := (translate_eq_ok_iff.mp h).2.2
  have hproper := proper_of_mem_flatMap hlegal
  refine ⟨?_, (label_mem_lines_iff hentry h).trans (static_mem_label?_iff hscope i), ?_⟩
  · rw [hlines]
    exact (address_mem_printed_iff hproper).mpr hused
  · intro p hload n huse
    refine ⟨_, code_of_address_line hentry h hload huse, ?_, ?_⟩
    · -- nothing declares the name, so it is left open
      intro hfunction
      obtain ⟨hnone, hvalue⟩ := valueIn_static h hload hscope hfunction
      refine ⟨mem_openSymbols hload ?_ hnone, hvalue⟩
      rwa [hlines, filterMap_readText_printed (fun _ => symbol?_of_isFrame) _ hproper]
    · -- the name is neither a number nor a cell, so its label decides
      intro m hdefined
      refine symbolValue_of_fixed? ?_
      rw [fixed?_static _ hscope, label_of_label_line hentry h hload hdefined]

end Translated

/-- The static word of a program without functions is the first of its variables. -/
theorem static_meets_function_countdown :
    ∃ lines p, (translate { bootstrap := false } [countdown]).value = .ok lines ∧
      load lines = .ok p ∧ "(Main.0)" ∉ lines ∧ lines[50]? = some "@Main.0" ∧
      p.code[(lines.take 50).countP isCodeLine]? = some (.address 16) := by
  obtain ⟨lines, hlines⟩ :
      ∃ lines, (translate { bootstrap := false } [countdown]).value = .ok lines := ⟨_, rfl⟩
  obtain ⟨p, hload⟩ := (exists_load_iff (by decide) hlines).mpr ⟨by decide, by decide⟩
  have huse : lines[50]? = some ("@" ++ "Main.0") := by cases hlines; rfl
  have hstatic : "Main.0" ∈
      (program { bootstrap := false } [countdown]).filterMap Block.static? := by decide
  have hfunction : "Main.0" ∉
      (program { bootstrap := false } [countdown]).filterMap Block.function? := by decide
  obtain ⟨-, hlabel, hcode⟩ := static_meets_function (by decide) hlines hstatic
  obtain ⟨w, hw, hvariable, -⟩ := hcode p hload 50 huse
  have hfirst : (openSymbols lines).idxOf "Main.0" = 0 := by
    cases hlines
    decide +kernel
  rw [(hvariable hfunction).2, hfirst] at hw
  exact ⟨lines, p, hlines, hload, fun h => hfunction (hlabel.mp h), huse, hw⟩

/-- A unit with a function that has the name of a static word of the unit. -/
def clashing : SourceUnit :=
  ⟨"Main", [⟨1, .function "Main.0" 0⟩, ⟨2, .pushConstant 7⟩, ⟨3, .popStatic 0⟩]⟩

/-- The static word is declared as a label, and what is popped into it goes to the place of the
function in the code, taken for an address in memory. -/
theorem clashing_static_is_place :
    ∃ lines p, isSymbol ({ bootstrap := false } : Options).entry ∧
      (translate { bootstrap := false } [clashing]).value = .ok lines ∧ load lines = .ok p ∧
      "Main.0" ∈ (program { bootstrap := false } [clashing]).filterMap Block.static? ∧
      "(Main.0)" ∈ lines ∧ lines[17]? = some "@Main.0" ∧
      p.code[(lines.take 17).countP isCodeLine]? = some (.address 0) := by
  obtain ⟨lines, hlines⟩ :
      ∃ lines, (translate { bootstrap := false } [clashing]).value = .ok lines := ⟨_, rfl⟩
  obtain ⟨p, hload⟩ := (exists_load_iff (by decide) hlines).mpr ⟨by decide, by decide⟩
  have huse : lines[17]? = some ("@" ++ "Main.0") := by cases hlines; rfl
  have hdefined : lines[1]? = some ("(" ++ "Main.0" ++ ")") := by cases hlines; rfl
  have hcode := code_of_address_line (by decide) hlines hload huse
  have hvalue := valueIn_of_label_line (by decide) hlines hload hdefined
  have hplace : (lines.take 1).countP isCodeLine = 0 := by
    cases hlines
    decide +kernel
  have hnone : predefined? "Main.0" = none := by decide
  rw [hnone, hplace] at hvalue
  rw [hvalue] at hcode
  exact ⟨lines, p, by decide, hlines, hload, by decide, List.mem_of_getElem? hdefined, huse, hcode⟩

end HackVm
