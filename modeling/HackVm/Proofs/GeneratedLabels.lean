/-
The labels that the translator makes up.

The numbers for made-up labels are handed out along the blocks of a program
(`Numbered`), so no label is made up twice (`nodup_madeUp`), and a block loads no
made-up label but its own (`mem_madeUp_of_refers`). Names of the program begin
with no dollar sign, so none of them is a made-up label (`not_isMadeUp_of_mem_names`).

* **`Session.madeUp_declared_once`** — in what a session prints, a made-up label that is loaded or
  declared is declared exactly once, and it is no name of the program and no cell.
-/
import HackVm.Proofs.BlockLines
import Mathlib.Data.List.Nodup

namespace HackVm

open Assembly Machine Template

/-! ### Numbers along the blocks -/

/-- Whether blocks take the numbers for their labels one after the other, from given ones on. -/
def Numbered : Labels → List Block → Prop
  | _, [] => True
  | labels, .bootstrap _ _ id :: rest => id = labels.call ∧ Numbered (labels.take .call) rest
  | labels, .instruction _ own i :: rest => own = labels ∧ Numbered (labels.after i) rest

theorem numbered_blocksFrom_append {is : List Instruction} {scope : Scope} {labels : Labels}
    {rest : List Block} (h : Numbered (labels.afterAll is) rest) :
    Numbered labels (blocksFrom scope labels is ++ rest) := by
  induction is generalizing scope labels with
  | nil => exact h
  | cons i is ih => exact ⟨rfl, ih h⟩

theorem numbered_programFrom (labels : Labels) (units : List SourceUnit) :
    Numbered labels (programFrom labels units) := by
  induction units generalizing labels with
  | nil => trivial
  | cons u rest ih => exact numbered_blocksFrom_append (ih _)

/-- The blocks of a program take all numbers from zero on. -/
theorem numbered_program (options : Options) (units : List SourceUnit) :
    Numbered {} (program options units) := by
  unfold program
  split
  · exact ⟨rfl, numbered_programFrom _ units⟩
  · exact numbered_programFrom _ units

/-- A made-up label whose number has not been handed out yet. -/
def Labels.Unused (labels : Labels) (name : String) : Prop :=
  (∃ op part id, part ∈ compareParts ∧ labels.compare ≤ id ∧ name = compareLabel op part id) ∨
    ∃ callee id, labels.call ≤ id ∧ name = returnLabel callee id

theorem unused_of_unused_after {labels : Labels} {i : Instruction} {name : String}
    (h : (labels.after i).Unused name) : labels.Unused name := by
  have hcompare : labels.compare ≤ (labels.after i).compare := by
    cases i <;> simp [Labels.after, Instruction.labelKind?, Labels.take]
  have hcall : labels.call ≤ (labels.after i).call := by
    cases i <;> simp [Labels.after, Instruction.labelKind?, Labels.take]
  rcases h with ⟨op, part, id, hpart, hid, rfl⟩ | ⟨callee, id, hid, rfl⟩
  · exact .inl ⟨op, part, id, hpart, hcompare.trans hid, rfl⟩
  · exact .inr ⟨callee, id, hcall.trans hid, rfl⟩

/-- The label of a call is used up with its number. -/
theorem not_unused_returnLabel {labels : Labels} {name : String} :
    ¬ (labels.take .call).Unused (returnLabel name labels.call) := by
  rintro (⟨op, part, id, hpart, -, heq⟩ | ⟨callee, id, hid, heq⟩)
  · exact compareLabel_ne_returnLabel hpart heq.symm
  · have hnumber := number_eq_of_returnLabel_eq heq
    simp only [Labels.take] at hid
    omega

/-- The labels of a comparison are used up with their number. -/
theorem not_unused_compareLabel {labels : Labels} {op : CompareOp} {part : String}
    (h : part ∈ compareParts) :
    ¬ (labels.take .compare).Unused (compareLabel op part labels.compare) := by
  rintro (⟨op', part', id, -, hid, heq⟩ | ⟨callee, id, -, heq⟩)
  · have hnumber := number_eq_of_compareLabel_eq heq
    simp only [Labels.take] at hid
    omega
  · exact compareLabel_ne_returnLabel h heq

/-- An instruction makes up labels that were unused, and they are used up behind it. -/
theorem unused_of_mem_madeUp {scope : Scope} {labels : Labels} {i : Instruction} {name : String}
    (h : name ∈ (Block.instruction scope labels i).madeUp) :
    labels.Unused name ∧ ¬ (labels.after i).Unused name := by
  cases i with
  | compare op =>
    obtain ⟨part, hpart, rfl⟩ := List.mem_map.mp h
    exact ⟨.inl ⟨op, part, _, hpart, le_rfl, rfl⟩, not_unused_compareLabel hpart⟩
  | call callee n =>
    rw [List.mem_singleton.mp h]
    exact ⟨.inr ⟨callee, _, le_rfl, rfl⟩, not_unused_returnLabel⟩
  | _ => exact absurd h List.not_mem_nil

theorem nodup_madeUp_block (b : Block) : b.madeUp.Nodup := by
  cases b with
  | bootstrap base entry id => exact List.nodup_singleton _
  | instruction scope labels i =>
    cases i with
    | compare op =>
      have hparts : compareParts.Nodup := by decide
      exact hparts.map_on fun part _ part' _ heq => compareLabel_part_inj heq
    | call callee n => exact List.nodup_singleton _
    | _ => exact List.nodup_nil

theorem unused_of_numbered {bs : List Block} {labels : Labels} (h : Numbered labels bs)
    {name : String} (hname : name ∈ bs.flatMap Block.madeUp) : labels.Unused name := by
  -- numbers only grow along the blocks, so a later label is unused now as well
  induction bs generalizing labels with
  | nil => exact absurd hname List.not_mem_nil
  | cons b rest ih =>
    rw [List.flatMap_cons, List.mem_append] at hname
    cases b with
    | bootstrap base entry id =>
      obtain ⟨rfl, hrest⟩ := h
      rcases hname with hname | hname
      · rw [List.mem_singleton.mp hname]
        exact .inr ⟨entry, _, le_rfl, rfl⟩
      · exact unused_of_unused_after (i := .call entry 0) (ih hrest hname)
    | instruction scope own i =>
      obtain ⟨rfl, hrest⟩ := h
      rcases hname with hname | hname
      · exact (unused_of_mem_madeUp hname).1
      · exact unused_of_unused_after (ih hrest hname)

/-- Blocks that take their numbers one after the other make up no label twice. -/
theorem nodup_madeUp {bs : List Block} {labels : Labels} (h : Numbered labels bs) :
    (bs.flatMap Block.madeUp).Nodup := by
  induction bs generalizing labels with
  | nil => exact List.nodup_nil
  | cons b rest ih =>
    rw [List.flatMap_cons]
    cases b with
    | bootstrap base entry id =>
      obtain ⟨rfl, hrest⟩ := h
      refine (nodup_madeUp_block _).append (ih hrest) ?_
      intro name hname hrestname
      rw [List.mem_singleton.mp hname] at hrestname
      exact not_unused_returnLabel (unused_of_numbered hrest hrestname)
    | instruction scope own i =>
      obtain ⟨rfl, hrest⟩ := h
      refine (nodup_madeUp_block _).append (ih hrest) ?_
      -- what the rest makes up is unused when it begins, and the labels of the block are used up
      intro name hname hrestname
      exact (unused_of_mem_madeUp hname).2 (unused_of_numbered hrest hrestname)

/-! ### Names of the program -/

/-- The names of the program in a block: functions, its labels and static words. -/
def Block.names (b : Block) : List String :=
  b.function?.toList ++ b.callee?.toList ++ b.label?.toList ++ b.target?.toList ++
    b.static?.toList

theorem isSymbol_of_function? {b : Block} (hb : b.Legal) {name : String}
    (h : b.function? = some name) : isSymbol name := by
  unfold Block.function? at h
  split at h <;> cases h
  exact isSymbol_of_readSymbol hb.2.2

theorem isSymbol_of_callee? {b : Block} (hb : b.Legal) {name : String}
    (h : b.callee? = some name) : isSymbol name := by
  unfold Block.callee? at h
  split at h <;> cases h
  · exact hb
  · exact isSymbol_of_readSymbol hb.2.2

/-- A label that a block declares or jumps to belongs to a scope whose name is a symbol. -/
theorem exists_label_of_label? {b : Block} (hb : b.Legal) {name : String}
    (h : b.label? = some name) :
    ∃ scope : Scope, isSymbol (scope.function.getD scope.unit) ∧ ∃ l, name = scope.label l := by
  unfold Block.label? at h
  split at h <;> cases h
  exact ⟨_, hb.2.1, _, rfl⟩

theorem exists_label_of_target? {b : Block} (hb : b.Legal) {name : String}
    (h : b.target? = some name) :
    ∃ scope : Scope, isSymbol (scope.function.getD scope.unit) ∧ ∃ l, name = scope.label l := by
  unfold Block.target? at h
  split at h <;> cases h <;> exact ⟨_, hb.2.1, _, rfl⟩

theorem exists_static_of_static? {b : Block} (hb : b.Legal) {name : String}
    (h : b.static? = some name) :
    ∃ scope : Scope, isSymbol scope.unit ∧ ∃ i, name = scope.static i := by
  unfold Block.static? at h
  split at h <;> cases h <;> exact ⟨_, hb.1, _, rfl⟩

/-- No name of the program is a made-up label. -/
theorem not_isMadeUp_of_mem_names {b : Block} (hb : b.Legal) {name : String}
    (h : name ∈ b.names) : ¬ IsMadeUp name := by
  -- each of them begins with a symbol
  simp only [Block.names, List.mem_append, Option.mem_toList] at h
  rcases h with (((hfunction | hcallee) | hlabel) | htarget) | hstatic
  · exact not_isMadeUp_of_isSymbol (isSymbol_of_function? hb hfunction)
  · exact not_isMadeUp_of_isSymbol (isSymbol_of_callee? hb hcallee)
  · obtain ⟨scope, hscope, l, rfl⟩ := exists_label_of_label? hb hlabel
    exact not_isMadeUp_label hscope l
  · obtain ⟨scope, hscope, l, rfl⟩ := exists_label_of_target? hb htarget
    exact not_isMadeUp_label hscope l
  · obtain ⟨scope, hscope, i, rfl⟩ := exists_static_of_static? hb hstatic
    exact not_isMadeUp_static hscope i

theorem isMadeUp_of_mem_madeUp {b : Block} {name : String} (h : name ∈ b.madeUp) :
    IsMadeUp name := by
  cases b with
  | bootstrap base entry id =>
    rw [List.mem_singleton.mp h]
    exact isMadeUp_returnLabel entry id
  | instruction scope labels i =>
    cases i with
    | compare op =>
      obtain ⟨part, -, rfl⟩ := List.mem_map.mp h
      exact isMadeUp_compareLabel op part _
    | call callee n =>
      rw [List.mem_singleton.mp h]
      exact isMadeUp_returnLabel callee _
    | _ => exact absurd h List.not_mem_nil

theorem not_isMadeUp_toString (n : Nat) : ¬ IsMadeUp (toString n) := by
  intro h
  have hmem : '$' ∈ Nat.toDigits 10 n := by
    simpa using List.mem_of_mem_head? h
  exact not_isSymbolChar_dollar (isSymbolChar_of_mem_toDigits hmem)

/-- A variable is a static word, unless it is the size of a frame. -/
theorem static_or_number_of_varName? {b : Block} {name : String} (h : b.varName? = some name) :
    b.static? = some name ∨ ∃ n : Nat, name = toString n := by
  unfold Block.varName? at h
  split at h
  · exact .inl h
  · exact .inl h
  · split at h <;> cases h
    exact .inr ⟨_, rfl⟩
  · cases h

theorem not_named_of_isMadeUp {b : Block} (hb : b.Legal) {name : String} (hname : IsMadeUp name) :
    b.function? ≠ some name ∧ b.callee? ≠ some name ∧ b.label? ≠ some name ∧
      b.target? ≠ some name ∧ b.static? ≠ some name := by
  have hnames : name ∉ b.names := fun hmem => not_isMadeUp_of_mem_names hb hmem hname
  simpa only [Block.names, List.mem_append, Option.mem_toList, not_or, and_assoc] using hnames

/-- A made-up label that a block loads is one that is made up for the block itself. -/
theorem mem_madeUp_of_refers {b : Block} (hb : b.Legal) {name : String} (hname : IsMadeUp name)
    (h : b.Refers name) : name ∈ b.madeUp := by
  obtain ⟨-, hnotCallee, -, hnotTarget, hnotStatic⟩ := not_named_of_isMadeUp hb hname
  rcases h with hcell | ⟨n, -, rfl⟩ | htemp | hvariable | htarget | hcallee | hmade
  · have hall : ∀ cell ∈ templateCells, ¬ IsMadeUp cell := by decide
    exact absurd hname (hall name hcell)
  · exact absurd hname (not_isMadeUp_toString n)
  · unfold Block.temp? at htemp
    split at htemp <;> cases htemp <;> simp [IsMadeUp, tempCell] at hname
  · rcases static_or_number_of_varName? hvariable with hstatic | ⟨n, rfl⟩
    · exact absurd hstatic hnotStatic
    · exact absurd hname (not_isMadeUp_toString n)
  · exact absurd htarget hnotTarget
  · exact absurd hcallee hnotCallee
  · exact hmade

/-- A made-up label among the labels of a block is one that is made up for it. -/
theorem mem_madeUp_of_mem_label? {b : Block} (hb : b.Legal) {name : String}
    (hname : IsMadeUp name) (h : name ∈ b.code.filterMap Line.label?) : name ∈ b.madeUp := by
  obtain ⟨hnotFunction, -, hnotLabel, -, -⟩ := not_named_of_isMadeUp hb hname
  simp only [filterMap_label?_code, List.mem_append, Option.mem_toList] at h
  rcases h with (hfunction | hlabel) | hmade
  · exact absurd hfunction hnotFunction
  · exact absurd hlabel hnotLabel
  · exact hmade

/-! ### Declared once -/

/-- A made-up label that the lines of numbered blocks load or declare is declared once. -/
theorem count_label?_of_isMadeUp {bs : List Block} {labels : Labels} (hbs : Numbered labels bs)
    (hlegal : ∀ b ∈ bs, b.Legal) {name : String} (hname : IsMadeUp name)
    (h : name ∈ (bs.flatMap Block.code).filterMap Line.symbol? ∨
      name ∈ (bs.flatMap Block.code).filterMap Line.label?) :
    ((bs.flatMap Block.code).filterMap Line.label?).count name = 1 := by
  -- the declarations of the name are those among the made-up labels
  have hcount : ((bs.flatMap Block.code).filterMap Line.label?).count name =
      (bs.flatMap Block.madeUp).count name := by
    clear hbs h
    induction bs with
    | nil => rfl
    | cons b rest ih =>
      obtain ⟨hfunction, -, hlabel, -, -⟩ := not_named_of_isMadeUp (hlegal b (by simp)) hname
      have hhead : (b.code.filterMap Line.label?).count name = b.madeUp.count name := by
        have hnone : (b.function?.toList ++ b.label?.toList).count name = 0 := by
          simp [List.count_eq_zero, hfunction, hlabel]
        rw [filterMap_label?_code, List.count_append, hnone, Nat.zero_add]
      simp only [List.flatMap_cons, List.filterMap_append, List.count_append, hhead,
        ih fun c hc => hlegal c (by simp [hc])]
  rw [hcount]
  refine List.count_eq_one_of_mem (nodup_madeUp hbs) ?_
  simp only [List.mem_filterMap, List.mem_flatMap] at h ⊢
  rcases h with ⟨l, ⟨b, hb, hl⟩, hsymbol⟩ | ⟨l, ⟨b, hb, hl⟩, hlabel⟩
  · refine ⟨b, hb, mem_madeUp_of_refers (hlegal b hb) hname (refers_of_mem_symbols ?_)⟩
    exact List.mem_filterMap.mpr ⟨l, hl, hsymbol⟩
  · refine ⟨b, hb, mem_madeUp_of_mem_label? (hlegal b hb) hname ?_⟩
    exact List.mem_filterMap.mpr ⟨l, hl, hlabel⟩

/-- After any requests, refused ones among them, a made-up label that a printed line loads or
declares is declared on exactly one line. It is no name of the program, and no cell. -/
theorem Session.madeUp_declared_once {options : Options} (hentry : isSymbol options.entry)
    (requests : List Request) {name : String} (hname : IsMadeUp name)
    (h : "@" ++ name ∈ ((Session.start options).attempts requests).printed ∨
      "(" ++ name ++ ")" ∈ ((Session.start options).attempts requests).printed) :
    ((Session.start options).attempts requests).printed.count ("(" ++ name ++ ")") = 1 ∧
      predefined? name = none ∧
      ∀ b ∈ program options ((Session.start options).accepted requests), name ∉ b.names := by
  have hlegal := legal_of_mem_program hentry
    ((Session.start options).legal_of_mem_accepted requests)
  have hproper := proper_of_mem_flatMap hlegal
  refine ⟨?_, predefined?_of_isMadeUp hname, ?_⟩
  · rw [Session.attempts_eq, Session.printed_appendAll_start] at h ⊢
    rw [address_mem_printed_iff hproper, label_mem_printed_iff hproper] at h
    rw [count_label_printed hproper]
    exact count_label?_of_isMadeUp (numbered_program _ _) hlegal hname h
  · intro b hb hmem
    exact not_isMadeUp_of_mem_names (hlegal b hb) hmem hname

/-- Requests of which the second is refused because its name is taken. The function is named as if
to meet a label of a comparison. -/
def refusedBetween : List Request :=
  [.unit ⟨"Main", [⟨1, .function "EQ_TRUE.0" 0⟩, ⟨2, .compare .eq⟩]⟩,
    .unit ⟨"Main", [⟨1, .compare .eq⟩]⟩,
    .source "Other" "eq\ncall EQ_TRUE.0 0"]

theorem Session.madeUp_declared_once_refusedBetween :
    "@" ++ "$EQ_TRUE.1" ∈ ((Session.start {}).attempts refusedBetween).printed ∧
      ((Session.start {}).attempts refusedBetween).printed.count
        ("(" ++ "$EQ_TRUE.1" ++ ")") = 1 := by
  have hloaded : "@" ++ "$EQ_TRUE.1" ∈
      ((Session.start {}).attempts refusedBetween).printed := by decide +kernel
  exact ⟨hloaded, (Session.madeUp_declared_once (by decide) refusedBetween (by decide)
    (.inl hloaded)).1⟩

end HackVm
