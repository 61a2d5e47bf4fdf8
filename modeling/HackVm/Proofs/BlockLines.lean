/-
What stands on the lines of a block.

The lines of a block declare what the block declares and no other label
(`filterMap_label?_code`), and the symbols that they load (`Block.symbols`,
`filterMap_symbol?_code`) are cells with names of their own, numbers, and what the
block refers to (`Block.Refers`, `refers_of_mem_symbols`). The lines of a legal block are proper
(`proper_of_mem_code`), so they are read as they were written.
-/
import HackVm.Proofs.Blocks
import HackVm.Proofs.PrintedLines
import Mathlib.Algebra.GroupWithZero.Nat

namespace HackVm

open Assembly Template

/-- Whether a line is written by the translator and, if it jumps, jumps on a known condition. -/
def Assembly.Line.isKnown : Line → Bool
  | .command (.compute _ _ (.unknown _)) | .verbatim _ => false
  | _ => true

/-! ### Pieces of templates -/

/-- A property of lines that all lines of zeros have if the lines of one have it. -/
theorem forall_mem_zeros {p : Line → Prop} (h : ∀ l ∈ pushConstant 0, p l) (n : Nat) :
    ∀ l ∈ (List.replicate n (pushConstant 0)).flatten, p l := by
  intro l hl
  obtain ⟨ls, hls, hl⟩ := List.mem_flatten.mp hl
  rw [List.eq_of_mem_replicate hls] at hl
  exact h l hl

/-- However a number is pushed, its lines declare no label. -/
theorem filterMap_label?_pushNumber (n : Int16) :
    (pushNumber n).filterMap Line.label? = [] := by
  unfold pushNumber loadD
  split
  · rfl
  · split
    · rfl
    · split <;> rfl

theorem all_isKnown_pushNumber (n : Int16) : (pushNumber n).all Line.isKnown := by
  unfold pushNumber loadD
  split
  · rfl
  · split
    · rfl
    · split <;> rfl

/-! ### Labels -/

/-- The labels on the lines of a block are those that the block declares. -/
theorem filterMap_label?_code (b : Block) :
    b.code.filterMap Line.label? = b.function?.toList ++ b.label?.toList ++ b.madeUp := by
  cases b with
  | bootstrap base entry id => rfl
  | instruction scope labels i =>
    cases i with
    | pushConstant n =>
      show (Line.opening _ :: pushNumber n ++ [Line.closing _]).filterMap Line.label? = []
      rw [List.cons_append, List.filterMap_cons_none rfl, List.filterMap_append,
        filterMap_label?_pushNumber]
      rfl
    | function name n =>
      show (Line.opening _ :: Line.label name ::
        (List.replicate n.toNat (pushConstant 0)).flatten ++ [Line.closing _]).filterMap
          Line.label? = [name]
      have hzeros : ((List.replicate n.toNat (pushConstant 0)).flatten).filterMap
          Line.label? = [] :=
        List.filterMap_eq_nil_iff.mpr (forall_mem_zeros (by decide) _)
      rw [List.cons_append, List.cons_append, List.filterMap_cons_none rfl,
        List.filterMap_cons_some (f := Line.label?) rfl, List.filterMap_append, hzeros]
      rfl
    | _ => rfl

/-! ### Symbols -/

/-- The numbers loaded to push a constant. The constant `-1` needs none, and the least one is made
from the greatest. -/
def constantNumbers (n : Int16) : List Nat :=
  if n = -1 then [] else [min n.toInt.natAbs 32767]

theorem lt_of_mem_constantNumbers {n : Int16} {m : Nat} (h : m ∈ constantNumbers n) :
    m < 65536 := by
  unfold constantNumbers at h
  split at h
  · exact absurd h List.not_mem_nil
  · rw [List.mem_singleton.mp h]
    omega

/-- The symbols that a comparison loads, in their order. -/
def compareSymbols (op : CompareOp) (id : Nat) : List String :=
  let label part := compareLabel op part id
  ["SP", "R13", "SP", "R14", "R14", label "LNEG", "R13", label "SUB", label "TEST", "R13",
    label "SUB", label "TEST", "R14", "R13", label "TRUE", toString 0, "SP", "SP", label "END",
    "SP", "SP"]

/-- The symbols that a call loads, in their order. -/
def callSymbols (callee : String) (args : UInt16) (id : Nat) : List String :=
  returnLabel callee id :: ["SP", "SP", "LCL", "SP", "SP", "ARG", "SP", "SP", "THIS", "SP", "SP",
    "THAT", "SP", "SP", "SP"] ++ toString (args.toNat + 5) :: ["ARG", "SP", "LCL"] ++ [callee]

/-- The symbols that the template of an instruction loads, in their order. -/
def Instruction.symbols (scope : Scope) (labels : Labels) : Instruction → List String
  | .pushConstant n => (constantNumbers n).map toString ++ ["SP", "SP"]
  | .pushSegment segment i => [toString i.toNat, segment.baseSymbol, "SP", "SP"]
  | .popSegment segment i =>
    ["SP", "R13"] ++ toString i.toNat :: segment.baseSymbol :: ["R14", "R13", "R14"]
  | .pushStatic i => [scope.static i, "SP", "SP"]
  | .popStatic i => ["SP", scope.static i]
  | .pushPointer slot => [slot.symbol, "SP", "SP"]
  | .popPointer slot => ["SP", slot.symbol]
  | .pushTemp i => [tempCell i, "SP", "SP"]
  | .popTemp i => ["SP", tempCell i]
  | .binary _ => ["SP", "R13", "SP", "R14", "R14", "R13", "SP", "SP"]
  | .unary _ => ["SP", "R13", "SP", "SP"]
  | .compare op => compareSymbols op (labels.next .compare)
  | .label _ => []
  | .goto name => [scope.label name]
  | .ifGoto name => ["SP", scope.label name]
  | .function _ n => (List.replicate n.toNat [toString 0, "SP", "SP"]).flatten
  | .call name n => callSymbols name n (labels.next .call)
  | .return => ["LCL", "R13"] ++ toString 5 :: ["R14", "SP", "ARG", "ARG", "SP", "R13", "THAT",
      "R13", "THIS", "R13", "ARG", "R13", "LCL", "R14"]

/-- The symbols that the code of a block loads, in their order. -/
def Block.symbols : Block → List String
  | .bootstrap base entry id => toString base.toNat :: "SP" :: callSymbols entry 0 id
  | .instruction scope labels i => i.symbols scope labels

/-- The comments of a frame load nothing. -/
theorem filterMap_symbol?_framed (title : String) (body : List Line) :
    (framed title body).filterMap Line.symbol? = body.filterMap Line.symbol? := by
  rw [framed, List.cons_append, List.filterMap_cons_none rfl, List.filterMap_append]
  exact List.append_nil _

theorem filterMap_symbol?_loadD (n : Int16) :
    (loadD n).filterMap Line.symbol? = [toString (min n.toInt.natAbs 32767)] := by
  have hlow : -2 ^ 15 ≤ n.toInt := n.le_toInt
  have hhigh : n.toInt < 2 ^ 15 := n.toInt_lt
  -- loaded as it is, by way of the greatest number, or as its negative
  unfold loadD
  split
  · rename_i hn
    have hn : 0 ≤ n.toInt := Int16.le_iff_toInt_le.mp hn
    have habs : n.toInt.toNat = min n.toInt.natAbs 32767 := by omega
    exact congrArg (fun m => [toString m]) habs
  · split
    · rename_i hmin
      rw [hmin]
      rfl
    · rename_i hn hmin
      have hn : n.toInt < 0 := Int.not_le.mp fun h => hn (Int16.le_iff_toInt_le.mpr h)
      have hmin : n.toInt ≠ -2 ^ 15 := fun h => hmin (Int16.toInt_inj.mp h)
      have habs : (-n.toInt).toNat = min n.toInt.natAbs 32767 := by omega
      exact congrArg (fun m => [toString m]) habs

/-- However a constant is pushed, its lines load one number at most. -/
theorem filterMap_symbol?_pushNumber (n : Int16) :
    (pushNumber n).filterMap Line.symbol? = (constantNumbers n).map toString ++ ["SP", "SP"] := by
  unfold pushNumber constantNumbers
  split
  · rfl
  · rw [List.filterMap_append, filterMap_symbol?_loadD]
    rfl

theorem filterMap_symbol?_zeros (n : Nat) :
    ((List.replicate n (pushConstant 0)).flatten).filterMap Line.symbol? =
      (List.replicate n [toString 0, "SP", "SP"]).flatten := by
  induction n with
  | zero => rfl
  | succ n ih =>
    rw [List.replicate_succ, List.flatten_cons, List.filterMap_append, ih, List.replicate_succ,
      List.flatten_cons]
    rfl

/-- The symbols on the lines of a block are those that its templates load. -/
theorem filterMap_symbol?_code (b : Block) : b.code.filterMap Line.symbol? = b.symbols := by
  cases b with
  | bootstrap base entry id =>
    rw [Block.code, HackVm.bootstrap, filterMap_symbol?_framed, List.filterMap_append,
      filterMap_symbol?_framed]
    rfl
  | instruction scope labels i =>
    rw [Block.code, Instruction.code, filterMap_symbol?_framed]
    cases i with
    | pushConstant n => exact filterMap_symbol?_pushNumber n
    | function name n => exact filterMap_symbol?_zeros n.toNat
    | _ => rfl

/-- The cells with names of their own that templates use, those of the temp segment aside. -/
def templateCells : List String :=
  ["SP", "LCL", "ARG", "THIS", "THAT", "R13", "R14"]

theorem baseSymbol_mem_templateCells (segment : Segment) :
    segment.baseSymbol ∈ templateCells := by
  cases segment <;> decide

theorem slotSymbol_mem_templateCells (slot : PointerSlot) : slot.symbol ∈ templateCells := by
  cases slot <;> decide

/-- The cell of the temp segment that a block pushes or pops into. -/
def Block.temp? : Block → Option String
  | .instruction _ _ (.pushTemp i) | .instruction _ _ (.popTemp i) => some (tempCell i)
  | _ => none

/-- The name in a block that the machine takes for a variable: a static word, or the size of a frame
if it is a number of more than 16 bits. -/
def Block.varName? : Block → Option String
  | .instruction scope _ (.pushStatic i) | .instruction scope _ (.popStatic i) =>
    some (scope.static i)
  | .instruction _ _ (.call _ args) =>
    if args.toNat + 5 < 65536 then none else some (toString (args.toNat + 5))
  | _ => none

/-- What a block may load: a cell, a number of 16 bits, a variable, or what its instruction refers
to. -/
def Block.Refers (b : Block) (name : String) : Prop :=
  name ∈ templateCells ∨ (∃ n < 65536, name = toString n) ∨ b.temp? = some name ∨
    b.varName? = some name ∨ b.target? = some name ∨ b.callee? = some name ∨ name ∈ b.madeUp

section Refers

variable {b : Block} {name : String}

theorem Block.Refers.cell (h : name ∈ templateCells) : b.Refers name :=
  .inl h

theorem Block.Refers.number {n : Nat} (h : n < 65536) : b.Refers (toString n) :=
  .inr (.inl ⟨n, h, rfl⟩)

theorem Block.Refers.temp (h : b.temp? = some name) : b.Refers name :=
  .inr (.inr (.inl h))

theorem Block.Refers.var (h : b.varName? = some name) : b.Refers name :=
  .inr (.inr (.inr (.inl h)))

theorem Block.Refers.target (h : b.target? = some name) : b.Refers name :=
  .inr (.inr (.inr (.inr (.inl h))))

theorem Block.Refers.callee (h : b.callee? = some name) : b.Refers name :=
  .inr (.inr (.inr (.inr (.inr (.inl h)))))

theorem Block.Refers.madeUp (h : name ∈ b.madeUp) : b.Refers name :=
  .inr (.inr (.inr (.inr (.inr (.inr h)))))

theorem refers_of_mem_cells {names : List String} (h : ∀ name ∈ names, name ∈ templateCells) :
    ∀ name ∈ names, b.Refers name :=
  fun name hname => .cell (h name hname)

theorem refers_of_mem_pushFrom (h : b.Refers name) : ∀ symbol ∈ [name, "SP", "SP"],
    b.Refers symbol :=
  List.forall_mem_cons.mpr ⟨h, refers_of_mem_cells (by decide)⟩

theorem refers_of_mem_popTo (h : b.Refers name) : ∀ symbol ∈ ["SP", name], b.Refers symbol :=
  List.forall_mem_cons.mpr ⟨.cell (by decide), List.forall_mem_singleton.mpr h⟩

/-- A comparison loads cells, a zero and labels made up for it. -/
theorem refers_of_mem_compareSymbols {op : CompareOp} {id : Nat}
    (h : ∀ part ∈ compareParts, compareLabel op part id ∈ b.madeUp) :
    ∀ name ∈ compareSymbols op id, b.Refers name := by
  have hmem : ∀ name ∈ compareSymbols op id, name ∈ templateCells ∨ name = toString 0 ∨
      name ∈ compareParts.map fun part => compareLabel op part id := by
    simp [compareSymbols, templateCells, compareParts]
  intro name hname
  rcases hmem name hname with hcell | rfl | hmade
  · exact .cell hcell
  · exact .number (by decide)
  · obtain ⟨part, hpart, rfl⟩ := List.mem_map.mp hmade
    exact .madeUp (h part hpart)

/-- A call loads its return label, cells, the size of its frame and the name called. -/
theorem refers_of_mem_callSymbols {callee : String} {args : UInt16} {id : Nat}
    (hreturn : returnLabel callee id ∈ b.madeUp) (hcallee : b.callee? = some callee)
    (hframe : b.Refers (toString (args.toNat + 5))) :
    ∀ name ∈ callSymbols callee args id, b.Refers name := by
  refine List.forall_mem_append.mpr ⟨List.forall_mem_append.mpr ⟨?_, ?_⟩,
    List.forall_mem_singleton.mpr (.callee hcallee)⟩
  · exact List.forall_mem_cons.mpr ⟨.madeUp hreturn, refers_of_mem_cells (by decide)⟩
  · exact List.forall_mem_cons.mpr ⟨hframe, refers_of_mem_cells (by decide)⟩

end Refers

/-- The symbols of a block are cells, numbers and what it refers to. -/
theorem Block.refers_of_mem (b : Block) : ∀ name ∈ b.symbols, b.Refers name := by
  cases b with
  | bootstrap base entry id =>
    refine List.forall_mem_cons.mpr ⟨.number base.toNat_lt,
      List.forall_mem_cons.mpr ⟨.cell (by decide), ?_⟩⟩
    exact refers_of_mem_callSymbols List.mem_cons_self rfl (.number (by decide))
  | instruction scope labels i =>
    cases i with
    | pushConstant n =>
      refine List.forall_mem_append.mpr
        ⟨List.forall_mem_map.mpr fun m hm => ?_, refers_of_mem_cells (by decide)⟩
      exact .number (lt_of_mem_constantNumbers hm)
    | pushSegment segment i =>
      exact List.forall_mem_cons.mpr
        ⟨.number i.toNat_lt, refers_of_mem_pushFrom (.cell (baseSymbol_mem_templateCells segment))⟩
    | popSegment segment i =>
      exact List.forall_mem_append.mpr ⟨refers_of_mem_cells (by decide),
        List.forall_mem_cons.mpr ⟨.number i.toNat_lt, List.forall_mem_cons.mpr
          ⟨.cell (baseSymbol_mem_templateCells segment), refers_of_mem_cells (by decide)⟩⟩⟩
    | pushStatic i => exact refers_of_mem_pushFrom (.var rfl)
    | popStatic i => exact refers_of_mem_popTo (.var rfl)
    | pushPointer slot => exact refers_of_mem_pushFrom (.cell (slotSymbol_mem_templateCells slot))
    | popPointer slot => exact refers_of_mem_popTo (.cell (slotSymbol_mem_templateCells slot))
    | pushTemp i => exact refers_of_mem_pushFrom (.temp rfl)
    | popTemp i => exact refers_of_mem_popTo (.temp rfl)
    | binary op | unary op =>
      exact refers_of_mem_cells (by simp [Block.symbols, Instruction.symbols, templateCells])
    | compare op =>
      exact refers_of_mem_compareSymbols fun part hpart => List.mem_map_of_mem hpart
    | label name => exact List.forall_mem_nil _
    | goto target => exact List.forall_mem_singleton.mpr (.target rfl)
    | ifGoto target => exact refers_of_mem_popTo (.target rfl)
    | function function n =>
      intro name hname
      obtain ⟨symbols, hsymbols, hname⟩ := List.mem_flatten.mp hname
      rw [List.eq_of_mem_replicate hsymbols] at hname
      exact refers_of_mem_pushFrom (.number (by decide)) name hname
    | call callee n =>
      refine refers_of_mem_callSymbols List.mem_cons_self rfl ?_
      -- the size of the frame is a variable to the machine if it is too large for a number
      by_cases hn : n.toNat + 5 < 65536
      · exact .number hn
      · exact .var (if_neg hn)
    | «return» =>
      exact List.forall_mem_append.mpr ⟨refers_of_mem_cells (by decide),
        List.forall_mem_cons.mpr ⟨.number (by decide), refers_of_mem_cells (by decide)⟩⟩

/-- A block loads nothing but cells, numbers and what it refers to. -/
theorem refers_of_mem_symbols {b : Block} {name : String}
    (h : name ∈ b.code.filterMap Line.symbol?) : b.Refers name :=
  b.refers_of_mem name (filterMap_symbol?_code b ▸ h)

theorem not_mem_static {scope : Scope} {i : UInt16} {names : List String}
    (h : ∀ name ∈ names, name ∈ templateCells) : scope.static i ∉ names := by
  have hcells : ∀ cell ∈ templateCells, '.' ∉ cell.toList := by decide
  intro hmem
  exact hcells _ (h _ hmem) (by simp [Scope.static])

theorem toString_ne {n : Nat} {other : String} {c : Char} (hc : c ∈ other.toList)
    (hdigit : ¬ c.isDigit) : toString n ≠ other := by
  rintro rfl
  exact hdigit (isDigit_of_mem_toString hc)

theorem toString_notMem_cells {n : Nat} {names : List String}
    (h : ∀ name ∈ names, name ∈ templateCells) : toString n ∉ names := by
  have hletter : ∀ cell ∈ templateCells, cell.toList.any fun c => ¬ c.isDigit := by decide
  intro hmem
  obtain ⟨c, hc, hdigit⟩ := List.any_iff_exists_prop.mp (hletter _ (h _ hmem))
  exact toString_ne hc hdigit rfl

/-- The variable of a block stands among its symbols once. -/
theorem exists_symbols_eq {b : Block} (hb : b.Legal) {name : String}
    (h : b.varName? = some name) : ∃ before after,
      b.code.filterMap Line.symbol? = before ++ name :: after ∧ name ∉ before ++ after := by
  rw [filterMap_symbol?_code]
  unfold Block.varName? at h
  split at h
  · cases h
    exact ⟨[], ["SP", "SP"], rfl, not_mem_static (by decide)⟩
  · cases h
    exact ⟨["SP"], [], rfl, not_mem_static (by decide)⟩
  · rename_i scope labels callee args
    split at h
    · cases h
    · cases h
      refine ⟨_, _, List.append_assoc .., ?_⟩
      -- the number is made of digits, and no other symbol of the call is
      obtain ⟨c, rest, hcallee, -, hdigit⟩ :=
        exists_cons_of_isSymbol (isSymbol_of_readSymbol hb.2.2 : isSymbol callee)
      have hreturn : toString (args.toNat + 5) ≠ returnLabel callee labels.call :=
        toString_ne (c := '$') (by simp [toList_returnLabel]) (by decide)
      have hname : toString (args.toNat + 5) ≠ callee :=
        toString_ne (hcallee ▸ List.mem_cons_self) hdigit
      intro hmem
      rcases List.mem_append.mp hmem with hmem | hmem
      · rcases List.mem_cons.mp hmem with heq | hmem
        · exact hreturn heq
        · exact toString_notMem_cells (by decide) hmem
      · rcases List.mem_append.mp hmem with hmem | hmem
        · exact toString_notMem_cells (by decide) hmem
        · exact hname (List.mem_singleton.mp hmem)
  · cases h

/-! ### Lines that are read as they were written -/

/-- The lines of a block are the translator's own, and their jumps are known to the machine. -/
theorem isKnown_of_mem_code {b : Block} {l : Line} (h : l ∈ b.code) : l.isKnown := by
  have hframed : ∀ {title : String} {body : List Line}, body.all Line.isKnown →
      (framed title body).all Line.isKnown := by
    intro title body hbody
    simp [framed, Line.isKnown, List.all_append, hbody]
  suffices hall : b.code.all Line.isKnown from List.all_eq_true.mp hall l h
  cases b with
  | bootstrap base entry id =>
    refine hframed ?_
    rw [List.all_append, hframed rfl]
    rfl
  | instruction scope labels i =>
    refine hframed ?_
    cases i with
    | pushConstant n => exact all_isKnown_pushNumber n
    | function name n =>
      have hzeros : ∀ l ∈ pushConstant 0, l.isKnown = true := by decide
      refine List.all_eq_true.mpr ?_
      intro l hl
      rcases List.mem_cons.mp hl with rfl | hl
      · rfl
      · exact forall_mem_zeros hzeros n.toNat l hl
    | binary op => cases op <;> rfl
    | unary op => cases op <;> rfl
    | compare op => cases op <;> rfl
    | _ => rfl

theorem isKnown_of_mem_flatMap {bs : List Block} : ∀ l ∈ bs.flatMap Block.code, l.isKnown := by
  intro l hl
  obtain ⟨b, -, hl⟩ := List.mem_flatMap.mp hl
  exact isKnown_of_mem_code hl

theorem isTargetName_of_mem_madeUp {b : Block} (hb : b.Legal) {name : String}
    (h : name ∈ b.madeUp) : IsTargetName name := by
  cases b with
  | bootstrap base entry id =>
    rw [List.mem_singleton.mp h]
    exact isTargetName_returnLabel hb id
  | instruction scope labels i =>
    cases i with
    | compare op =>
      obtain ⟨part, hpart, rfl⟩ := List.mem_map.mp h
      exact isTargetName_compareLabel hpart _
    | call callee n =>
      rw [List.mem_singleton.mp h]
      exact isTargetName_returnLabel (isSymbol_of_readSymbol hb.2.2) _
    | _ => exact absurd h List.not_mem_nil

theorem isTargetName_tempCell (i : UInt16) : IsTargetName (tempCell i) :=
  isTargetName_append (List.all_iff_forall_prop.mp (by decide)) (isTargetName_toString _)

theorem isTargetName_of_refers {b : Block} (hb : b.Legal) {name : String} (h : b.Refers name) :
    IsTargetName name := by
  rcases h with hcell | ⟨n, -, rfl⟩ | htemp | hvariable | htarget | hcallee | hmade
  · have hall : ∀ cell ∈ templateCells, cell.toList.all fun c => isSymbolChar c ∨ c = '$' := by
      decide
    exact List.all_iff_forall_prop.mp (hall name hcell)
  · exact isTargetName_toString n
  · unfold Block.temp? at htemp
    split at htemp <;> cases htemp <;> exact isTargetName_tempCell _
  · unfold Block.varName? at hvariable
    split at hvariable
    · cases hvariable
      exact isTargetName_static hb.1 _
    · cases hvariable
      exact isTargetName_static hb.1 _
    · split at hvariable <;> cases hvariable
      exact isTargetName_toString _
    · cases hvariable
  · unfold Block.target? at htarget
    split at htarget <;> cases htarget <;>
      exact isTargetName_label hb.2.1 (isSymbol_of_readSymbol hb.2.2)
  · unfold Block.callee? at hcallee
    split at hcallee <;> cases hcallee
    · exact isTargetName_of_isSymbol hb
    · exact isTargetName_of_isSymbol (isSymbol_of_readSymbol hb.2.2)
  · exact isTargetName_of_mem_madeUp hb hmade

theorem isTargetName_of_mem_label? {b : Block} (hb : b.Legal) {name : String}
    (h : name ∈ b.code.filterMap Line.label?) : IsTargetName name := by
  rw [filterMap_label?_code, List.mem_append, List.mem_append, Option.mem_toList,
    Option.mem_toList] at h
  rcases h with (hfunction | hlabel) | hmade
  · unfold Block.function? at hfunction
    split at hfunction <;> cases hfunction
    exact isTargetName_of_isSymbol (isSymbol_of_readSymbol hb.2.2)
  · unfold Block.label? at hlabel
    split at hlabel <;> cases hlabel
    exact isTargetName_label hb.2.1 (isSymbol_of_readSymbol hb.2.2)
  · exact isTargetName_of_mem_madeUp hb hmade

/-- The lines of a legal block are proper. -/
theorem proper_of_mem_code {b : Block} (hb : b.Legal) {l : Line} (hl : l ∈ b.code) : l.Proper := by
  have hknown := isKnown_of_mem_code hl
  cases l with
  | opening title => trivial
  | closing title => trivial
  | verbatim text => cases hknown
  | label name =>
    exact isTargetName_of_mem_label? hb (List.mem_filterMap.mpr ⟨_, hl, rfl⟩)
  | command c =>
    cases c with
    | address symbol =>
      exact isTargetName_of_refers hb (refers_of_mem_symbols (List.mem_filterMap.mpr ⟨_, hl, rfl⟩))
    | compute dest comp jump =>
      rintro condition rfl
      cases hknown

/-- All lines of a program with legal blocks are proper. -/
theorem proper_of_mem_flatMap {bs : List Block} (h : ∀ b ∈ bs, b.Legal) :
    ∀ l ∈ bs.flatMap Block.code, l.Proper := by
  intro l hl
  obtain ⟨b, hb, hl⟩ := List.mem_flatMap.mp hl
  exact proper_of_mem_code (h b hb) hl

/-! ### Addresses and cells -/

/-- The number of instructions in the code of a block. -/
def Block.size (b : Block) : Nat :=
  (commands b.code).length

/-- The address of the code of a block among the code of others. -/
def address (bs : List Block) (i : Nat) : Nat :=
  ((bs.take i).map Block.size).sum

theorem length_commands_flatMap (bs : List Block) :
    (commands (bs.flatMap Block.code)).length = (bs.map Block.size).sum := by
  induction bs with
  | nil => rfl
  | cons b rest ih =>
    simp only [List.flatMap_cons, commands, List.filterMap_append, List.length_append,
      List.map_cons, List.sum_cons] at ih ⊢
    rw [ih]
    rfl

theorem address_succ {bs : List Block} {i : Nat} {b : Block} (h : bs[i]? = some b) :
    address bs (i + 1) = address bs i + b.size := by
  simp [address, List.take_add_one, h]

theorem address_length (bs : List Block) :
    address bs bs.length = (commands (bs.flatMap Block.code)).length := by
  rw [address, List.take_length, length_commands_flatMap]

theorem address_mono (bs : List Block) {i j : Nat} (h : i ≤ j) : address bs i ≤ address bs j := by
  obtain ⟨k, rfl⟩ := Nat.exists_eq_add_of_le h
  rw [address, address, List.take_add, List.map_append, List.sum_append]
  exact Nat.le_add_right _ _

theorem address_le (bs : List Block) (i : Nat) :
    address bs i ≤ (commands (bs.flatMap Block.code)).length := by
  rw [← address_length]
  rcases Nat.le_total i bs.length with h | h
  · exact address_mono bs h
  · rw [address, address, List.take_of_length_le h, List.take_length]

/-- No address is strictly inside the code of a block. -/
theorem not_inside {bs : List Block} {i j : Nat} {b : Block} (h : bs[i]? = some b) :
    ¬ (address bs i < address bs j ∧ address bs j < address bs i + b.size) := by
  rintro ⟨hlow, hhigh⟩
  -- a later block begins behind the code, and an earlier one or the block itself not in it
  rcases Nat.lt_or_ge i j with hij | hij
  · have := address_mono bs (Nat.succ_le_of_lt hij)
    rw [Nat.succ_eq_add_one, address_succ h] at this
    omega
  · have := address_mono bs hij
    omega

theorem eq_take_append_drop {α : Type} {xs : List α} {i : Nat} {x : α} (h : xs[i]? = some x) :
    xs = xs.take i ++ [x] ++ xs.drop (i + 1) := by
  obtain ⟨hi, rfl⟩ := List.getElem?_eq_some_iff.mp h
  rw [List.append_assoc, List.singleton_append, ← List.drop_eq_getElem_cons hi,
    List.take_append_drop]

/-- The code of a block stands between that of those before it and that of those behind it. -/
theorem flatMap_code_eq {bs : List Block} {i : Nat} {b : Block} (h : bs[i]? = some b) :
    bs.flatMap Block.code =
      (bs.take i).flatMap Block.code ++ b.code ++ (bs.drop (i + 1)).flatMap Block.code := by
  calc bs.flatMap Block.code
      = (bs.take i ++ [b] ++ bs.drop (i + 1)).flatMap Block.code := by rw [← eq_take_append_drop h]
    _ = _ := by rw [List.flatMap_append, List.flatMap_append, List.flatMap_singleton]

/-- The cell of a variable: from 16 on, in the order in which the blocks first use them. -/
def variableCell (bs : List Block) (name : String) : Nat :=
  16 + (bs.filterMap Block.varName?).eraseDups.idxOf name

end HackVm
