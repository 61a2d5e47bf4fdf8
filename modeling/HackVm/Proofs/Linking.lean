/-
Programs whose names fit together.

Blocks are linked if no function and no label is declared twice, if what they jump
to and call is declared, and if no function has a name that stands for a cell or a
static word (`Linked`). Linked blocks that fit into the memory for instructions can
be loaded, and in the loaded program every block is installed at its address
(`exists_loaded`): a function and a label stand for the address of the block that
declares them (`Loaded.function`, `Loaded.label`), and a static word for its place in the order
of first uses (`Loaded.static`).
-/
import HackVm.Proofs.BlockOutcomes

namespace HackVm

open Assembly Machine Template

/-! ### Numbers and cells -/

theorem readAddress_toString (n : Nat) :
    readAddress (toString n).toList = if n < 65536 then some (BitVec.ofNat 16 n) else none := by
  have hdigits : (toString n).toList = Nat.toDigits 10 n := by simp
  have hplus : ∀ rest, Nat.toDigits 10 n ≠ '+' :: rest := by
    intro rest h
    have hdigit : '+'.isDigit :=
      Nat.isDigit_of_mem_toDigits (b := 10) (n := n) (by decide) (by decide)
        (h ▸ List.mem_cons_self)
    exact absurd hdigit (by decide)
  have hread : readAddress (Nat.toDigits 10 n) =
      (Text.readUInt16 (Nat.toDigits 10 n)).map UInt16.toBitVec := by
    generalize Nat.toDigits 10 n = digits at hplus
    unfold readAddress
    split
    · rename_i rest
      exact absurd rfl (hplus rest)
    · rfl
  rw [hdigits, hread, Text.readUInt16, Text.readNat_toDigits]
  by_cases hn : n < 65536
  · simp only [hn, ↓reduceIte, Option.bind_some, Option.map_some]
    exact congrArg some (BitVec.eq_of_toNat_eq (by simp))
  · simp [hn]

theorem fixed?_toString (labels : Std.TreeMap String Word) {n : Nat} (h : n < 65536) :
    fixed? labels (toString n) = some (BitVec.ofNat 16 n) := by
  rw [fixed?, readAddress_toString, if_pos h]
  rfl

theorem predefined?_toString (n : Nat) : predefined? (toString n) = none := by
  have hword : ∀ word : String, ¬ word.toList.all Char.isDigit → toString n ≠ word := by
    rintro word hword rfl
    exact hword (List.all_eq_true.mpr fun c hc => isDigit_of_mem_toString hc)
  unfold predefined?
  split
  iterate 7 rename_i heq; exact absurd heq (hword _ (by decide))
  split
  · rename_i rest heq
    exact absurd (isDigit_of_mem_toString (heq ▸ List.mem_cons_self : 'R' ∈ _)) (by decide)
  · rfl

/-- A name that stands for a cell does so whatever labels there are. -/
theorem fixed?_of_predefined? (labels : Std.TreeMap String Word) {name : String} {w : Word}
    (hnumber : readAddress name.toList = none) (hcell : predefined? name = some w) :
    fixed? labels name = some w := by
  rw [fixed?, hnumber, hcell]
  rfl

theorem fixed?_tempCell (labels : Std.TreeMap String Word) {i : UInt16} (h : i < 8) :
    fixed? labels (tempCell i) = some (BitVec.ofNat 16 (5 + i.toNat)) := by
  have hall : ∀ k < 8, readAddress (tempCell (UInt16.ofNat k)).toList = none ∧
      predefined? (tempCell (UInt16.ofNat k)) = some (BitVec.ofNat 16 (5 + k)) := by decide
  obtain ⟨hnumber, hcell⟩ := hall i.toNat h
  rw [UInt16.ofNat_toNat] at hnumber hcell
  exact fixed?_of_predefined? labels hnumber hcell

theorem fixed?_templateCells (labels : Std.TreeMap String Word) :
    ∀ name ∈ templateCells, (fixed? labels name).isSome := by
  have hall : ∀ name ∈ templateCells, readAddress name.toList = none ∧
      (predefined? name).isSome := by decide
  intro name hname
  obtain ⟨hnumber, hcell⟩ := hall name hname
  obtain ⟨w, hw⟩ := Option.isSome_iff_exists.mp hcell
  rw [fixed?_of_predefined? labels hnumber hw]
  rfl

theorem symbolValue_of_fixed? {labels : Std.TreeMap String Word} {cs : List Command}
    {name : String} {w : Word} (h : fixed? labels name = some w) :
    symbolValue labels cs name = w := by
  rw [symbolValue, h, Option.getD_some]

/-- In every program the names of cells and the numbers stand for what they should. -/
theorem standard_symbolValue (labels : Std.TreeMap String Word) (cs : List Command) :
    Standard (symbolValue labels cs) := by
  have hcell : ∀ (name : String) (w : Word), readAddress name.toList = none →
      predefined? name = some w → symbolValue labels cs name = w := fun name w hnumber hcell =>
    symbolValue_of_fixed? (fixed?_of_predefined? labels hnumber hcell)
  exact {
    sp := hcell "SP" 0 (by decide) (by decide)
    lcl := hcell "LCL" 1 (by decide) (by decide)
    arg := hcell "ARG" 2 (by decide) (by decide)
    this := hcell "THIS" 3 (by decide) (by decide)
    that := hcell "THAT" 4 (by decide) (by decide)
    scratchA := hcell "R13" 13 (by decide) (by decide)
    scratchB := hcell "R14" 14 (by decide) (by decide)
    temp := fun i hi => symbolValue_of_fixed? (fixed?_tempCell labels hi)
    number := fun n hn => symbolValue_of_fixed? (fixed?_toString labels hn) }

/-! ### Places of labels -/

theorem exists_of_mem_labelPlaces {ls : List Line} {place n : Nat} {name : String}
    (h : (name, n) ∈ labelPlaces place ls) : ∃ first second,
      ls = first ++ .label name :: second ∧ n = place + (commands first).length := by
  induction ls generalizing place with
  | nil => exact absurd h List.not_mem_nil
  | cons l rest ih =>
    cases l with
    | label other =>
      rcases List.mem_cons.mp h with heq | h
      · cases heq
        exact ⟨[], rest, rfl, rfl⟩
      · obtain ⟨first, second, rfl, rfl⟩ := ih h
        exact ⟨.label other :: first, second, rfl, rfl⟩
    | command c =>
      obtain ⟨first, second, rfl, rfl⟩ := ih h
      refine ⟨.command c :: first, second, rfl, ?_⟩
      have hcount : (commands (.command c :: first)).length = (commands first).length + 1 := rfl
      omega
    | opening title =>
      obtain ⟨first, second, rfl, rfl⟩ := ih h
      exact ⟨.opening title :: first, second, rfl, rfl⟩
    | closing title =>
      obtain ⟨first, second, rfl, rfl⟩ := ih h
      exact ⟨.closing title :: first, second, rfl, rfl⟩
    | verbatim text =>
      obtain ⟨first, second, rfl, rfl⟩ := ih h
      exact ⟨.verbatim text :: first, second, rfl, rfl⟩

/-- A label stands for its place. -/
theorem label_eq_of_mem_labelPlaces {ls : List Line} {layout : Layout}
    (hlayout : layOut ls = .ok layout) {name : String} {n : Nat}
    (h : (name, n) ∈ labelPlaces 0 ls) :
    layout.labels[name]? = some (BitVec.ofNat 16 n) := by
  obtain ⟨first, second, rfl, rfl⟩ := exists_of_mem_labelPlaces h
  rw [label_eq hlayout, Nat.zero_add]

theorem mem_label?_of_mem_labelPlaces {ls : List Line} {place : Nat} {x : String × Nat}
    (h : x ∈ labelPlaces place ls) : x.1 ∈ ls.filterMap Line.label? := by
  obtain ⟨first, second, rfl, -⟩ := exists_of_mem_labelPlaces h
  exact List.mem_filterMap.mpr ⟨.label x.1, by simp, rfl⟩

theorem exists_mem_labelPlaces {ls : List Line} {name : String} (place : Nat)
    (h : name ∈ ls.filterMap Line.label?) : ∃ n, (name, n) ∈ labelPlaces place ls := by
  obtain ⟨l, hl, hlabel⟩ := List.mem_filterMap.mp h
  obtain ⟨first, second, rfl⟩ := List.append_of_mem hl
  unfold Line.label? at hlabel
  split at hlabel <;> cases hlabel
  exact ⟨_, by rw [labelPlaces_append]; exact List.mem_append_right _ List.mem_cons_self⟩

/-- What legal blocks declare is no number, and it is no cell unless it is a function. -/
theorem fixed?_of_declared {bs : List Block} (hlegal : ∀ b ∈ bs, b.Legal) {name : String}
    (hname : name ∈ (bs.flatMap Block.code).filterMap Line.label?)
    (hcell : name ∈ bs.filterMap Block.function? → predefined? name = none)
    (table : Std.TreeMap String Word) : fixed? table name = table[name]? := by
  rcases mem_label?_flatMap_iff.mp hname with hfunction | hlabel | hmade
  · obtain ⟨b, hb, hb'⟩ := List.mem_filterMap.mp hfunction
    exact fixed?_of_isSymbol table (isSymbol_of_function? (hlegal b hb) hb') (hcell hfunction)
  · obtain ⟨b, hb, hlabel⟩ := List.mem_filterMap.mp hlabel
    obtain ⟨scope, hscope, l, rfl⟩ := exists_label_of_label? (hlegal b hb) hlabel
    exact fixed?_label table hscope l
  · obtain ⟨b, -, hmade⟩ := List.mem_flatMap.mp hmade
    exact fixed?_of_isMadeUp table (isMadeUp_of_mem_madeUp hmade)

/-- If a function has the name of a cell, the name stands for the cell all the same. -/
theorem fixed?_of_declared_cell {bs : List Block} (hlegal : ∀ b ∈ bs, b.Legal) {name : String}
    (hname : name ∈ (bs.flatMap Block.code).filterMap Line.label?) {cell : Word}
    (hcell : predefined? name = some cell) (table : Std.TreeMap String Word) :
    fixed? table name = some cell ∧ name ∈ bs.filterMap Block.function? := by
  have hfunction : name ∈ bs.filterMap Block.function? := by
    by_contra hnot
    -- otherwise the name would stand for nothing without a table of labels
    have hnone := fixed?_of_declared hlegal hname (fun h => absurd h hnot) {}
    rw [Std.TreeMap.getElem?_emptyc, fixed?, hcell] at hnone
    cases hnumber : readAddress name.toList <;> simp [hnumber] at hnone
  obtain ⟨b, hb, hb'⟩ := List.mem_filterMap.mp hfunction
  have hnumber : readAddress name.toList = none := by
    simpa using readAddress_of_isSymbol (isSymbol_of_function? (hlegal b hb) hb') ""
  exact ⟨fixed?_of_predefined? table hnumber hcell, hfunction⟩

/-! ### Linked programs -/

/-- Whether the names in blocks fit together: nothing is declared twice, what is jumped to and
called is declared, and no function has the name of a static word. -/
structure Declared (bs : List Block) : Prop where
  functions : (bs.filterMap Block.function?).Nodup
  labels : (bs.filterMap Block.label?).Nodup
  noStatic : ∀ name ∈ bs.filterMap Block.function?, name ∉ bs.filterMap Block.static?
  targets : ∀ name ∈ bs.filterMap Block.target?, name ∈ bs.filterMap Block.label?
  callees : ∀ name ∈ bs.filterMap Block.callee?, name ∈ bs.filterMap Block.function?

/-- Whether the names in blocks fit together and no function has the name of a cell. -/
structure Linked (bs : List Block) : Prop extends Declared bs where
  noCell : ∀ name ∈ bs.filterMap Block.function?, predefined? name = none

/-- Whether a program is what blocks are loaded as, when symbols have the given values. -/
structure Loaded (p : Machine.Program) (value : String → Word) (bs : List Block) : Prop where
  standard : Standard value
  size : p.code.size = address bs bs.length
  installed : ∀ i b, bs[i]? = some b → Block.Installed p value b (address bs i)
  static : ∀ name ∈ bs.filterMap Block.static?, value name = BitVec.ofNat 16 (variableCell bs name)

namespace Linked

variable {bs : List Block} {labels : Labels} {layout : Layout}

/-- What linked blocks declare stands for its place. -/
theorem fixed?_of_mem_labelPlaces (h : Linked bs) (hlegal : ∀ b ∈ bs, b.Legal)
    (hlayout : layOut (bs.flatMap Block.code) = .ok layout) {x : String × Nat}
    (hx : x ∈ labelPlaces 0 (bs.flatMap Block.code)) :
    fixed? layout.labels x.1 = some (BitVec.ofNat 16 x.2) := by
  rw [fixed?_of_declared hlegal (mem_label?_of_mem_labelPlaces hx) (h.noCell x.1)]
  exact label_eq_of_mem_labelPlaces hlayout hx

theorem installed (h : Linked bs) (hlegal : ∀ b ∈ bs, b.Legal)
    (hlayout : layOut (bs.flatMap Block.code) = .ok layout)
    (hfits : (commands (bs.flatMap Block.code)).length ≤ 65535) {p : Machine.Program}
    (hp : p.code = resolve layout.labels (commands (bs.flatMap Block.code))) {i : Nat} {b : Block}
    (hi : bs[i]? = some b) :
    b.Installed p (symbolValue layout.labels (commands (bs.flatMap Block.code)))
      (address bs i) := by
  have hcode := flatMap_code_eq hi
  have hbefore : (commands ((bs.take i).flatMap Block.code)).length = address bs i :=
    length_commands_flatMap _
  generalize (bs.take i).flatMap Block.code = before at hcode hbefore
  generalize (bs.drop (i + 1)).flatMap Block.code = after at hcode
  refine ⟨?_, ?_, fun x hx => symbolValue_of_fixed? ?_⟩
  · have hplace := codeAt_of_eq_append (p := p) (ops _ before) (ops _ b.code)
      (ops _ after) (by
        rw [hp, resolve_eq, ← ops_append, ← ops_append, ← hcode]
        rfl)
    rwa [show (ops _ before).length = address bs i from (List.length_map _).trans hbefore]
      at hplace
  · have := address_le bs (i + 1)
    rw [address_succ hi] at this
    omega
  · refine h.fixed?_of_mem_labelPlaces hlegal hlayout ?_
    rw [hcode, List.append_assoc, labelPlaces_append, labelPlaces_append, Nat.zero_add, hbefore]
    exact List.mem_append_right _ (List.mem_append_left _ hx)

/-- What linked blocks declare stands for something. -/
theorem isSome_fixed?_of_declared (h : Linked bs) (hlegal : ∀ b ∈ bs, b.Legal)
    (hlayout : layOut (bs.flatMap Block.code) = .ok layout) {name : String}
    (hname : name ∈ (bs.flatMap Block.code).filterMap Line.label?) :
    (fixed? layout.labels name).isSome := by
  obtain ⟨n, hn⟩ := exists_mem_labelPlaces 0 hname
  rw [h.fixed?_of_mem_labelPlaces hlegal hlayout hn]
  rfl

/-- The labels on the lines of blocks are those that the blocks declare. -/
theorem mem_label?_flatMap {b : Block} (hb : b ∈ bs) (name : String)
    (h : b.function? = some name ∨ b.label? = some name ∨ name ∈ b.madeUp) :
    name ∈ (bs.flatMap Block.code).filterMap Line.label? := by
  have hmem : name ∈ b.code.filterMap Line.label? := by
    simp only [filterMap_label?_code, List.mem_append, Option.mem_toList]
    tauto
  obtain ⟨l, hl, hlabel⟩ := List.mem_filterMap.mp hmem
  exact List.mem_filterMap.mpr ⟨l, List.mem_flatMap.mpr ⟨b, hb, hl⟩, hlabel⟩

/-- Whatever a linked block loads stands for something, unless it is a variable. -/
theorem isSome_fixed?_of_refers (h : Linked bs) (hlegal : ∀ b ∈ bs, b.Legal)
    (hlayout : layOut (bs.flatMap Block.code) = .ok layout) {b : Block} (hb : b ∈ bs)
    {name : String} (hname : b.Refers name) (hvariable : b.varName? ≠ some name) :
    (fixed? layout.labels name).isSome := by
  have hdeclared := fun {c : Block} (hc : c ∈ bs) hwhich =>
    h.isSome_fixed?_of_declared hlegal hlayout (mem_label?_flatMap hc name hwhich)
  rcases hname with hcell | ⟨n, hn, rfl⟩ | htemp | hvar | htarget | hcallee | hmade
  · exact fixed?_templateCells _ name hcell
  · rw [fixed?_toString _ hn]
    rfl
  · have hcheck := hlegal b hb
    unfold Block.temp? at htemp
    split at htemp
    · cases htemp
      rw [fixed?_tempCell _ (lt_of_check_temp hcheck.2.2)]
      rfl
    · cases htemp
      rw [fixed?_tempCell _ (lt_of_check_temp hcheck.2.2)]
      rfl
    · cases htemp
  · exact absurd hvar hvariable
  · obtain ⟨c, hc, hlabel⟩ := List.mem_filterMap.mp
      (h.targets name (List.mem_filterMap.mpr ⟨b, hb, htarget⟩))
    exact hdeclared hc (.inr (.inl hlabel))
  · obtain ⟨c, hc, hfunction⟩ := List.mem_filterMap.mp
      (h.callees name (List.mem_filterMap.mpr ⟨b, hb, hcallee⟩))
    exact hdeclared hc (.inl hfunction)
  · exact hdeclared hb (.inr (.inr hmade))

/-- A static word of linked blocks is declared nowhere. -/
theorem fixed?_static_eq_none (h : Linked bs) (hlegal : ∀ b ∈ bs, b.Legal)
    (hlayout : layOut (bs.flatMap Block.code) = .ok layout) {name : String}
    (hname : name ∈ bs.filterMap Block.static?) : fixed? layout.labels name = none := by
  obtain ⟨b, hb, hstatic⟩ := List.mem_filterMap.mp hname
  obtain ⟨scope, hscope, i, rfl⟩ := exists_static_of_static? (hlegal b hb) hstatic
  rw [fixed?_static layout.labels hscope i]
  refine label_eq_none hlayout fun hmem => ?_
  exact h.noStatic _ ((static_mem_label?_iff hscope i).mp hmem) hname

/-- The size of a frame of more than 16 bits is no number to the machine, and declared nowhere. -/
theorem fixed?_toString_eq_none (hlegal : ∀ b ∈ bs, b.Legal)
    (hlayout : layOut (bs.flatMap Block.code) = .ok layout) {n : Nat} (hn : 65536 ≤ n) :
    fixed? layout.labels (toString n) = none := by
  have hnumber : readAddress (toString n).toList = none := by
    rw [readAddress_toString, if_neg (by omega)]
  rw [fixed?_eq hnumber (predefined?_toString n)]
  refine label_eq_none hlayout fun hmem => ?_
  rcases mem_label?_flatMap_iff.mp hmem with hfunction | hlabel | hmade
  · obtain ⟨c, hc, hfunction⟩ := List.mem_filterMap.mp hfunction
    obtain ⟨first, rest, hname, -, hdigit⟩ :=
      exists_cons_of_isSymbol (isSymbol_of_function? (hlegal c hc) hfunction)
    exact hdigit (isDigit_of_mem_toString (hname ▸ List.mem_cons_self))
  · obtain ⟨c, hc, hlabel⟩ := List.mem_filterMap.mp hlabel
    obtain ⟨scope, -, name, heq⟩ := exists_label_of_label? (hlegal c hc) hlabel
    have hdollar : '$' ∈ (toString n).toList := heq ▸ by simp [Scope.label]
    exact absurd (isDigit_of_mem_toString hdollar) (by decide)
  · obtain ⟨c, -, hmade⟩ := List.mem_flatMap.mp hmade
    exact not_isMadeUp_toString n (isMadeUp_of_mem_madeUp hmade)

theorem fixed?_variable_eq_none (h : Linked bs) (hlegal : ∀ b ∈ bs, b.Legal)
    (hlayout : layOut (bs.flatMap Block.code) = .ok layout) {b : Block} (hb : b ∈ bs)
    {name : String} (hname : b.varName? = some name) : fixed? layout.labels name = none := by
  unfold Block.varName? at hname
  split at hname
  · exact h.fixed?_static_eq_none hlegal hlayout (List.mem_filterMap.mpr ⟨_, hb, hname⟩)
  · exact h.fixed?_static_eq_none hlegal hlayout (List.mem_filterMap.mpr ⟨_, hb, hname⟩)
  · split at hname
    · cases hname
    · cases hname
      exact fixed?_toString_eq_none hlegal hlayout (by omega)
  · cases hname

/-- Of the symbols in a block only its variable stands for nothing yet. -/
theorem filter_symbols_code (h : Linked bs) (hlegal : ∀ b ∈ bs, b.Legal)
    (hlayout : layOut (bs.flatMap Block.code) = .ok layout) {b : Block} (hb : b ∈ bs) :
    (b.code.filterMap Line.symbol?).filter (fun name => (fixed? layout.labels name).isNone) =
      b.varName?.toList := by
  have hfixed : ∀ names : List String, (∀ name ∈ names, name ∈ b.code.filterMap Line.symbol? ∧
      b.varName? ≠ some name) →
      names.filter (fun name => (fixed? layout.labels name).isNone) = [] := by
    intro names hnames
    refine List.filter_eq_nil_iff.mpr fun name hname => ?_
    have hsome := h.isSome_fixed?_of_refers hlegal hlayout hb
      (refers_of_mem_symbols (hnames name hname).1) (hnames name hname).2
    rw [← Option.not_isSome, hsome]
    exact Bool.false_ne_true
  cases hvariable : b.varName? with
  | none => exact hfixed _ fun name hname => ⟨hname, by simp [hvariable]⟩
  | some v =>
    have hnone := h.fixed?_variable_eq_none hlegal hlayout hb hvariable
    obtain ⟨before, after, hlist, hother⟩ := exists_symbols_eq (hlegal b hb) hvariable
    rw [hlist] at hfixed ⊢
    have hne : ∀ {name}, name ∈ before ++ after → b.varName? ≠ some name := by
      rintro name hname heq
      cases hvariable.symm.trans heq
      exact hother hname
    rw [List.filter_append, hfixed before fun name hname =>
      ⟨List.mem_append_left _ hname, hne (List.mem_append_left _ hname)⟩, List.filter_cons,
      hfixed after fun name hname =>
      ⟨List.mem_append_right _ (List.mem_cons_of_mem _ hname), hne (List.mem_append_right _ hname)⟩]
    simp [hnone]

/-- The variables of linked blocks, in the order of their first uses. -/
theorem variableNames_eq (h : Linked bs) (hlegal : ∀ b ∈ bs, b.Legal)
    (hlayout : layOut (bs.flatMap Block.code) = .ok layout) :
    variableNames layout.labels (commands (bs.flatMap Block.code)) =
      (bs.filterMap Block.varName?).eraseDups := by
  rw [variableNames, filterMap_symbol?_commands]
  congr 1
  have hsuffix : ∀ cs : List Block, (∀ c ∈ cs, c ∈ bs) →
      ((cs.flatMap Block.code).filterMap Line.symbol?).filter
        (fun name => (fixed? layout.labels name).isNone) = cs.filterMap Block.varName? := by
    intro cs hcs
    induction cs with
    | nil => rfl
    | cons c rest ih =>
      rw [List.flatMap_cons, List.filterMap_append, List.filter_append,
        h.filter_symbols_code hlegal hlayout (hcs c (by simp)), ih fun d hd => hcs d (by simp [hd])]
      cases hc : c.varName? with
      | none => rw [List.filterMap_cons_none hc]; rfl
      | some v => rw [List.filterMap_cons_some hc]; rfl
  exact hsuffix bs fun c hc => hc

/-- Linked blocks that fit into the memory for instructions are loaded. -/
theorem exists_loaded (h : Linked bs) (hnumbered : Numbered labels bs)
    (hlegal : ∀ b ∈ bs, b.Legal) (hfits : (commands (bs.flatMap Block.code)).length ≤ 65535)
    (annotate : Bool) : ∃ p value, load (printed annotate (bs.flatMap Block.code)) = .ok p ∧
      Loaded p value bs := by
  obtain ⟨layout, hlayout⟩ := (layOut_ok_iff _).mpr
    ((nodup_label?_iff hnumbered hlegal).mpr ⟨h.functions, h.labels⟩)
  refine ⟨_, symbolValue layout.labels (commands (bs.flatMap Block.code)), by
    rw [load_printed annotate (proper_of_mem_flatMap hlegal), hlayout]
    rfl, standard_symbolValue _ _, ?_, fun i b hi => ?_, fun name hname => ?_⟩
  · simp [resolve_eq, address_length, commands]
  · exact h.installed hlegal hlayout hfits rfl hi
  · rw [symbolValue, h.fixed?_static_eq_none hlegal hlayout hname, Option.getD_none,
      h.variableNames_eq hlegal hlayout, variableCell]

end Linked

/-- What the translator prints for linked units is loaded, if it fits into the memory for
instructions. -/
theorem exists_loaded_of_translate {options : Options} {units : List SourceUnit}
    {lines : List String} (hentry : isSymbol options.entry)
    (h : (translate options units).value = .ok lines) (hlinked : Linked (program options units))
    (hfits : lines.countP isCodeLine ≤ 65535) :
    ∃ p value, load lines = .ok p ∧ Loaded p value (program options units) := by
  obtain ⟨hunits, -, rfl⟩ := translate_eq_ok_iff.mp h
  have hlegal := legal_of_mem_program hentry hunits
  rw [countP_isCodeLine_printed _ (proper_of_mem_flatMap hlegal)] at hfits
  exact hlinked.exists_loaded (numbered_program options units) hlegal hfits options.annotate

namespace Loaded

variable {p : Machine.Program} {value : String → Word} {bs : List Block}

/-- The addresses before and behind a block are words. -/
theorem toNat_address (h : Loaded p value bs) {i : Nat} {b : Block} (hi : bs[i]? = some b) :
    (BitVec.ofNat 16 (address bs i)).toNat = address bs i ∧
      (BitVec.ofNat 16 (address bs (i + 1))).toNat = address bs (i + 1) := by
  have := (h.installed i b hi).fits
  rw [BitVec.toNat_ofNat, BitVec.toNat_ofNat, address_succ hi]
  omega

/-- A function stands for the address of the block that begins it. -/
theorem function (h : Loaded p value bs) {i : Nat} {b : Block} (hi : bs[i]? = some b)
    {name : String} (hb : b.function? = some name) :
    value name = BitVec.ofNat 16 (address bs i) := by
  refine (h.installed i b hi).places (name, address bs i) ?_
  unfold Block.function? at hb
  split at hb <;> cases hb
  exact List.mem_cons_self

/-- A label stands for the address of the block that declares it. -/
theorem label (h : Loaded p value bs) {i : Nat} {b : Block} (hi : bs[i]? = some b)
    {name : String} (hb : b.label? = some name) :
    value name = BitVec.ofNat 16 (address bs i) := by
  refine (h.installed i b hi).places (name, address bs i) ?_
  unfold Block.label? at hb
  split at hb <;> cases hb
  exact List.mem_cons_self

end Loaded

end HackVm
