/-
Cells whose address does not change while a program runs.

The cells of the pointer and the temp segment and the static words are reached through
one symbol each (`FixedCell.symbol`). In a loaded program the symbols of the first two
stand for the cells 3 and 4 and for those from 5 to 12, and the symbol of a static word
for one from 16 on, in the order in which the text first uses the symbols that it leaves
open (`openSymbols`, `valueIn_static`). A static word is told from others by its unit and
its index alone, dots and digits in unit names notwithstanding (`static_eq_static_iff`).

* **`fixed_cells_apart`** — in a loaded program, whatever entry it begins with, two uses of such
  cells have one address if and only if they are uses of one cell, and none of these addresses is
  that of the stack, of a frame or of scratch.
-/
import HackVm.Proofs.AssemblyText
import HackVm.Proofs.Linking

namespace HackVm

open Assembly Machine Template

/-- A cell whose address does not change while a program runs. -/
inductive FixedCell where
  | pointer (slot : PointerSlot)
  | temp (i : UInt16)
  /-- The static word of a unit at an index. -/
  | static (unit : String) (i : UInt16)
  deriving DecidableEq, Repr

/-- The symbol of a cell. -/
def FixedCell.symbol : FixedCell → String
  | .pointer slot => slot.symbol
  | .temp i => tempCell i
  | .static unit i => Scope.static ⟨unit, none⟩ i

/-- The cell that a block pushes or pops into, if its address does not change. -/
def Block.fixedCell? : Block → Option FixedCell
  | .instruction _ _ (.pushPointer slot) | .instruction _ _ (.popPointer slot) =>
    some (.pointer slot)
  | .instruction _ _ (.pushTemp i) | .instruction _ _ (.popTemp i) => some (.temp i)
  | .instruction scope _ (.pushStatic i) | .instruction scope _ (.popStatic i) =>
    some (.static scope.unit i)
  | _ => none

/-- The number of commands in a block before the one that loads the address of its cell. What is
popped is taken from the stack first. -/
def Block.cellPlace : Block → Nat
  | .instruction _ _ (.popPointer _) | .instruction _ _ (.popTemp _)
  | .instruction _ _ (.popStatic _) => 4
  | _ => 0

theorem getElem?_commands_code {b : Block} {cell : FixedCell} (h : b.fixedCell? = some cell) :
    (commands b.code)[b.cellPlace]? = some (.address cell.symbol) := by
  unfold Block.fixedCell? at h
  split at h <;> cases h <;> rfl

/-! ### Names of static words -/

/-- The digits behind the last dot are the index, so what stands before them is the unit. -/
theorem static_eq_static_iff {scope other : Scope} {i j : UInt16} :
    scope.static i = other.static j ↔ scope.unit = other.unit ∧ i = j := by
  have hlist : ∀ (scope : Scope) (i : UInt16),
      (scope.static i).toList = scope.unit.toList ++ '.' :: Nat.toDigits 10 i.toNat := by
    intro scope i
    simp [Scope.static]
  constructor
  · intro h
    have hdigits : Nat.toDigits 10 i.toNat = Nat.toDigits 10 j.toNat := by
      rw [← serial_eq (hlist scope i), ← serial_eq (hlist other j), h]
    have hindex : i = j := UInt16.toNat_inj.mp (toDigits_inj hdigits)
    have hall := hlist scope i
    rw [h, hlist, hindex] at hall
    exact ⟨String.toList_inj.mp (List.append_cancel_right hall).symm, hindex⟩
  · rintro ⟨hunit, rfl⟩
    rw [Scope.static, Scope.static, hunit]

/-! ### Symbols that a text leaves open -/

/-- The symbols in a text that are no numbers, no cells with names of their own and no labels of the
text: its static words, and what it refers to and does not declare. Each is listed once. -/
def openSymbols (lines : List String) : List String :=
  (((readText lines).filterMap Line.symbol?).filter fun name =>
    (readAddress name.toList).isNone && (predefined? name).isNone &&
      name ∉ (readText lines).filterMap Line.label?).eraseDups

/-- The variables of a loaded text are the symbols that it leaves open. -/
theorem variableNames_eq_openSymbols {lines : List String} {layout : Layout}
    (h : layOut (readText lines) = .ok layout) :
    variableNames layout.labels (commands (readText lines)) = openSymbols lines := by
  have hlabel : ∀ name, (layout.labels[name]?).isNone =
      decide (name ∉ (readText lines).filterMap Line.label?) := by
    intro name
    by_cases hname : name ∈ (readText lines).filterMap Line.label?
    · obtain ⟨n, hn⟩ := exists_mem_labelPlaces 0 hname
      rw [label_eq_of_mem_labelPlaces h hn]
      simp [hname]
    · rw [label_eq_none h hname]
      simp [hname]
  rw [variableNames, openSymbols, filterMap_symbol?_commands]
  congr 2
  funext name
  rw [← hlabel name, fixed?]
  cases readAddress name.toList <;> cases predefined? name <;> rfl

theorem mem_openSymbols {lines : List String} {p : Machine.Program}
    (hload : Machine.load lines = .ok p) {name : String}
    (hname : name ∈ (readText lines).filterMap Line.symbol?)
    (hnone : fixed? p.labels name = none) : name ∈ openSymbols lines := by
  obtain ⟨layout, hlayout, rfl⟩ := exists_layout_of_load hload
  rw [← variableNames_eq_openSymbols hlayout, mem_variableNames, filterMap_symbol?_commands]
  exact ⟨hname, hnone⟩

/-! ### Labels in a text with any entry -/

theorem legal_or_bootstrap {options : Options} {units : List SourceUnit}
    (h : ∀ u ∈ units, u.Legal) {b : Block} (hb : b ∈ program options units) :
    b.Legal ∨ b = .bootstrap options.stackBase options.entry 0 := by
  unfold program at hb
  split at hb
  · rcases List.mem_cons.mp hb with rfl | hb
    · exact .inr rfl
    · exact .inl (legal_of_mem_programFrom h b hb)
  · exact .inl (legal_of_mem_programFrom h b hb)

/-- What the text of a program declares, the program declares, made-up labels aside: the entry may
be such that its label is not read as it was meant. -/
theorem mem_label?_of_mem_readText {options : Options} {units : List SourceUnit}
    (h : ∀ u ∈ units, u.Legal) {annotate : Bool} {name : String} (hname : ¬ IsMadeUp name)
    (hread : name ∈ (readText (printed annotate
      ((program options units).flatMap Block.code))).filterMap Line.label?) :
    name ∈ ((program options units).flatMap Block.code).filterMap Line.label? := by
  obtain ⟨read, hmem, hlabel⟩ := List.mem_filterMap.mp hread
  obtain ⟨text, htext, rfl⟩ := List.mem_map.mp hmem
  obtain ⟨l, hl, rfl⟩ := List.mem_map.mp htext
  obtain ⟨b, hb, hlb⟩ := List.mem_flatMap.mp (mem_of_mem_kept hl)
  refine List.mem_filterMap.mpr ⟨l, mem_of_mem_kept hl, ?_⟩
  rcases legal_or_bootstrap h hb with hlegal | rfl
  · -- the line is read as it was meant
    rw [ofText_text (proper_of_mem_code hlegal hlb)] at hlabel
    split at hlabel
    · cases hlabel
    · exact hlabel
  · -- the only label there is the one that the call of the entry returns to
    exfalso
    have hof : Line.ofText l.text = .label name := by
      unfold Line.label? at hlabel
      split at hlabel
      · rename_i heq
        cases hlabel
        exact heq
      · cases hlabel
    obtain ⟨made, rfl⟩ := exists_label_of_ofText (isKnown_of_mem_code hlb) hof
    have hmade : made ∈ (Block.bootstrap options.stackBase options.entry 0).code.filterMap
        Line.label? := List.mem_filterMap.mpr ⟨_, hlb, rfl⟩
    have hcall : made = returnLabel options.entry 0 := by
      rw [filterMap_label?_code] at hmade
      exact List.mem_singleton.mp hmade
    exact hname (isMadeUp_of_ofText (hcall ▸ isMadeUp_returnLabel _ _) hof)

/-! ### Addresses -/

section Loaded

variable {options : Options} {units : List SourceUnit} {lines : List String}
  {p : Machine.Program}

/-- A static word that no function is named like stands for the cell of its place among the open
symbols. -/
theorem valueIn_static (h : (translate options units).value = .ok lines)
    (hload : Machine.load lines = .ok p) {scope : Scope} (hscope : isSymbol scope.unit) {i : UInt16}
    (hname : scope.static i ∉ (program options units).filterMap Block.function?) :
    fixed? p.labels (scope.static i) = none ∧
      p.valueIn lines (scope.static i) =
        BitVec.ofNat 16 (16 + (openSymbols lines).idxOf (scope.static i)) := by
  obtain ⟨hlegal, -, rfl⟩ := translate_eq_ok_iff.mp h
  obtain ⟨layout, hlayout, rfl⟩ := exists_layout_of_load hload
  have hnone : fixed? layout.labels (scope.static i) = none := by
    rw [fixed?_static _ hscope]
    refine label_eq_none hlayout fun hmem => hname ?_
    exact (static_mem_label?_iff hscope i).mp
      (mem_label?_of_mem_readText hlegal (not_isMadeUp_static hscope i) hmem)
  refine ⟨hnone, ?_⟩
  rw [Program.valueIn, symbolValue, hnone, Option.getD_none, variableNames_eq_openSymbols hlayout]

/-- The number of commands that the machine reads before a block of a program. -/
def placeOfBlock (options : Options) (bs : List Block) (i : Nat) : Nat :=
  (commands (readText (printed options.annotate ((bs.take i).flatMap Block.code)))).length

/-- Where a block uses a cell, the loaded program loads what the cell's symbol stands for. -/
theorem code_of_fixedCell (h : (translate options units).value = .ok lines)
    (hload : Machine.load lines = .ok p) {i : Nat} {b : Block} {cell : FixedCell}
    (hi : (program options units)[i]? = some b) (hcell : b.fixedCell? = some cell) :
    p.code[placeOfBlock options (program options units) i + b.cellPlace]? =
        some (.address (p.valueIn lines cell.symbol)) ∧
      cell.symbol ∈ (readText lines).filterMap Line.symbol? := by
  obtain ⟨hlegal, -, rfl⟩ := translate_eq_ok_iff.mp h
  have hb : b.Legal := by
    rcases legal_or_bootstrap hlegal (List.mem_of_getElem? hi) with hb | rfl
    · exact hb
    · cases hcell
  rw [flatMap_code_eq hi, printed_append, printed_append] at hload ⊢
  have hread : (commands (readText (printed options.annotate b.code)))[b.cellPlace]? =
      some (.address cell.symbol) := by
    rw [commands, filterMap_readText_printed (fun _ => command?_of_isFrame) _
      fun l hl => proper_of_mem_code hb hl]
    exact getElem?_commands_code hcell
  refine ⟨code_of_load_append hload hread, ?_⟩
  rw [readText_append, readText_append, List.filterMap_append, List.filterMap_append]
  refine List.mem_append_left _ (List.mem_append_right _ ?_)
  rw [← filterMap_symbol?_commands]
  exact List.mem_filterMap.mpr ⟨_, List.mem_of_getElem? hread, rfl⟩

end Loaded

/-- The address of a cell: static words lie from 16 on, in the order in which the text first uses
its open symbols. -/
def FixedCell.address (lines : List String) : FixedCell → Nat
  | .pointer slot => slot.cell
  | .temp i => 5 + i.toNat
  | .static unit i => 16 + (openSymbols lines).idxOf (Scope.static ⟨unit, none⟩ i)

/-- Whether a text can use a cell: the temp segment has eight of them, and a static word is among
the symbols that the text leaves open. -/
def FixedCell.InUse (lines : List String) : FixedCell → Prop
  | .pointer _ => True
  | .temp i => i < 8
  | .static unit i => Scope.static ⟨unit, none⟩ i ∈ openSymbols lines

namespace FixedCell

variable {lines : List String} {cell other : FixedCell}

/-- The kinds of cells lie apart. -/
theorem address_range (h : cell.InUse lines) :
    match cell with
    | .pointer _ => cell.address lines = 3 ∨ cell.address lines = 4
    | .temp _ => 5 ≤ cell.address lines ∧ cell.address lines ≤ 12
    | .static .. => 16 ≤ cell.address lines := by
  cases cell with
  | pointer slot =>
    cases slot with
    | this => exact .inl rfl
    | that => exact .inr rfl
  | temp i =>
    have hi : i.toNat < 8 := h
    simp only [address]
    omega
  | static unit i => exact Nat.le_add_right _ _

theorem address_eq_iff (h : cell.InUse lines) (hother : other.InUse lines) :
    cell.address lines = other.address lines ↔ cell = other := by
  have hcell := address_range h
  have hrange := address_range hother
  refine ⟨fun heq => ?_, fun heq => heq ▸ rfl⟩
  -- cells of two kinds would have to lie in two ranges
  cases cell <;> cases other <;> simp only at hcell hrange
  case pointer.pointer slot slot' =>
    cases slot <;> cases slot' <;> first | rfl | cases heq
  case temp.temp i j =>
    simp only [address] at heq
    exact congrArg FixedCell.temp (UInt16.toNat_inj.mp (by omega))
  case static.static unit i unit' j =>
    simp only [address] at heq
    have hsymbol := (List.idxOf_inj h).mp (Nat.add_left_cancel heq)
    obtain ⟨rfl, rfl⟩ := static_eq_static_iff.mp hsymbol
    rfl
  all_goals omega

/-- No cell in use lies where the stack, a frame or scratch has its word. -/
theorem address_notMem (h : cell.InUse lines) :
    cell.address lines ∉ [0, 1, 2, 13, 14, 15] := by
  have hrange := address_range h
  simp only [List.mem_cons, List.not_mem_nil, or_false]
  cases cell <;> simp only at hrange <;> omega

theorem address_lt (h : cell.InUse lines) (hfew : (openSymbols lines).length < 65520) :
    cell.address lines < 65536 := by
  have hrange := address_range h
  cases cell with
  | static unit i =>
    have hlt := List.idxOf_lt_length_of_mem h
    simp only [address]
    omega
  | _ => simp only at hrange; omega

end FixedCell

section Loaded

variable {options : Options} {units : List SourceUnit} {lines : List String}
  {p : Machine.Program}

/-- The cells of a loaded program are in use, and their symbols stand for their addresses, if no
function is named like a static word. -/
theorem valueIn_symbol (h : (translate options units).value = .ok lines)
    (hload : Machine.load lines = .ok p)
    (hnames : ∀ name ∈ (program options units).filterMap Block.function?,
      name ∉ (program options units).filterMap Block.static?)
    {cell : FixedCell} (hcell : cell ∈ (program options units).filterMap Block.fixedCell?) :
    cell.InUse lines ∧ p.valueIn lines cell.symbol = BitVec.ofNat 16 (cell.address lines) := by
  obtain ⟨b, hb, hcell⟩ := List.mem_filterMap.mp hcell
  obtain ⟨i, hi⟩ := List.getElem?_of_mem hb
  have hlegal : b.Legal := by
    rcases legal_or_bootstrap (translate_eq_ok_iff.mp h).1 hb with hlegal | rfl
    · exact hlegal
    · cases hcell
  have hstandard : Standard (p.valueIn lines) := standard_symbolValue _ _
  have hloaded := (code_of_fixedCell h hload hi hcell).2
  unfold Block.fixedCell? at hcell
  -- a push and a pop of each kind of cell
  split at hcell <;> cases hcell
  case h_1 slot | h_2 slot =>
    refine ⟨trivial, BitVec.eq_of_toNat_eq ?_⟩
    rw [FixedCell.symbol, toNat_slotSymbol hstandard]
    cases slot <;> rfl
  case h_3 index | h_4 index =>
    have hlt := lt_of_check_temp hlegal.2.2
    exact ⟨hlt, hstandard.temp index hlt⟩
  case h_5 scope _ index | h_6 scope _ index =>
    have hstatic : scope.static index ∈ (program options units).filterMap Block.static? :=
      List.mem_filterMap.mpr ⟨_, hb, rfl⟩
    obtain ⟨hnone, hvalue⟩ := valueIn_static h hload (i := index) hlegal.1
      fun hfunction => hnames _ hfunction hstatic
    exact ⟨mem_openSymbols hload hloaded hnone, hvalue⟩

/-- In a loaded program each use of a cell whose address does not change loads the address of that
cell. Cells that the program uses have different addresses, none of which is that of the stack, of
a frame or of scratch, and static words lie from 16 on. -/
theorem fixed_cells_apart (h : (translate options units).value = .ok lines)
    (hload : Machine.load lines = .ok p) (hfew : (openSymbols lines).length < 65520)
    (hnames : ∀ name ∈ (program options units).filterMap Block.function?,
      name ∉ (program options units).filterMap Block.static?) :
    ∃ address : FixedCell → Word,
      (∀ i b cell, (program options units)[i]? = some b → b.fixedCell? = some cell →
        p.code[placeOfBlock options (program options units) i + b.cellPlace]? =
          some (.address (address cell))) ∧
      (∀ cell ∈ (program options units).filterMap Block.fixedCell?,
        ∀ other ∈ (program options units).filterMap Block.fixedCell?,
          address cell = address other ↔ cell = other) ∧
      ∀ cell ∈ (program options units).filterMap Block.fixedCell?,
        (address cell).toNat ∉ [0, 1, 2, 13, 14, 15] ∧
          ∀ unit i, cell = .static unit i → 16 ≤ (address cell).toNat := by
  have hvalue : ∀ cell ∈ (program options units).filterMap Block.fixedCell?,
      cell.InUse lines ∧ p.valueIn lines cell.symbol = BitVec.ofNat 16 (cell.address lines) :=
    fun cell hcell => valueIn_symbol h hload hnames hcell
  have haddress : ∀ cell ∈ (program options units).filterMap Block.fixedCell?,
      (BitVec.ofNat 16 (cell.address lines)).toNat = cell.address lines := by
    intro cell hcell
    rw [BitVec.toNat_ofNat, Nat.mod_eq_of_lt (FixedCell.address_lt (hvalue cell hcell).1 hfew)]
  refine ⟨fun cell => BitVec.ofNat 16 (cell.address lines), ?_, ?_, ?_⟩
  · intro i b cell hi hcell
    have hmem := List.mem_filterMap.mpr ⟨b, List.mem_of_getElem? hi, hcell⟩
    rw [(code_of_fixedCell h hload hi hcell).1, (hvalue cell hmem).2]
  · intro cell hcell other hother
    rw [← FixedCell.address_eq_iff (hvalue cell hcell).1 (hvalue other hother).1,
      ← BitVec.toNat_inj, haddress cell hcell, haddress other hother]
  · intro cell hcell
    rw [haddress cell hcell]
    refine ⟨FixedCell.address_notMem (hvalue cell hcell).1, ?_⟩
    rintro unit i rfl
    exact FixedCell.address_range (hvalue _ hcell).1

end Loaded

/-- Units of which one is named like the other with a dot and a digit behind it. -/
def dotted : List SourceUnit :=
  [⟨"A", [⟨1, .pushStatic 12⟩, ⟨2, .popTemp 7⟩, ⟨3, .pushPointer .this⟩]⟩,
    ⟨"A.1", [⟨1, .popStatic 2⟩, ⟨2, .function "A.1" 0⟩, ⟨3, .popPointer .that⟩]⟩]

/-- The label behind the call of this entry is not read as a label, but as a command. -/
theorem fixed_cells_apart_dotted :
    ∃ lines p, (translate { entry := "x=D//" } dotted).value = .ok lines ∧
      Machine.load lines = .ok p ∧ (openSymbols lines).length < 65520 ∧
      (∀ name ∈ (program { entry := "x=D//" } dotted).filterMap Block.function?,
        name ∉ (program { entry := "x=D//" } dotted).filterMap Block.static?) ∧
      ∃ address : FixedCell → Word, address (.static "A" 12) ≠ address (.static "A.1" 2) ∧
        p.code[52]? = some (.address (address (.static "A" 12))) := by
  have hnames : ∀ name ∈ (program { entry := "x=D//" } dotted).filterMap Block.function?,
      name ∉ (program { entry := "x=D//" } dotted).filterMap Block.static? := by decide
  obtain ⟨lines, hlines⟩ :
      ∃ lines, (translate { entry := "x=D//" } dotted).value = .ok lines := ⟨_, rfl⟩
  obtain ⟨p, hload⟩ : ∃ p, Machine.load lines = .ok p := by
    cases hlines
    exact ⟨_, rfl⟩
  have hfew : (openSymbols lines).length < 65520 := by
    cases hlines
    decide +kernel
  obtain ⟨address, hcode, hapart, -⟩ := fixed_cells_apart hlines hload hfew hnames
  refine ⟨lines, p, hlines, hload, hfew, hnames, address, ?_, ?_⟩
  · intro heq
    exact absurd ((hapart (.static "A" 12) (by decide) (.static "A.1" 2) (by decide)).mp heq)
      (by decide)
  · have hplace : placeOfBlock { entry := "x=D//" }
        (program { entry := "x=D//" } dotted) 1 = 52 := by decide +kernel
    have hfirst := hcode 1 (.instruction ⟨"A", none⟩ { call := 1 } (.pushStatic 12)) _ rfl rfl
    rwa [hplace] at hfirst

end HackVm
