/-
What goes wrong on a loaded machine.

The computation on a line that was loaded is one of the machine's own (`table?_of_ofText`). So a
step fails outside memory or outside the program, and then it leaves the state as it was, or else on
the condition of a jump (`step_fault`). Conditions are looked at neither in loading nor before the
result is stored: where one is none of the seven (`HasUnknownJump`), the step fails when registers
and memory have their new values already.

* **`errors_of_loaded`** — so it is for every text that is loaded, and whatever is asked of the
  machine afterwards, these faults, used up limits and unknown labels are all that goes wrong.
-/
import HackVm.Proofs.AssemblyText

namespace HackVm.Machine

open Assembly Text

/-! ### Computations -/

/-- What the machine computes from the data register and a second operand for a text, in which the
second operand is written as `A` wherever it is taken from. -/
def table? (text : String) (d y : Word) : Option Word :=
  match text with
  | "0" => some 0
  | "1" => some 1
  | "-1" => some (-1)
  | "D" => some d
  | "A" => some y
  | "!D" => some (~~~d)
  | "!A" => some (~~~y)
  | "-D" => some (-d)
  | "-A" => some (-y)
  | "D+1" => some (d + 1)
  | "A+1" => some (y + 1)
  | "D-1" => some (d - 1)
  | "A-1" => some (y - 1)
  | "D+A" | "A+D" => some (d + y)
  | "D-A" => some (d - y)
  | "A-D" => some (y - d)
  | "D&A" | "A&D" => some (d &&& y)
  | "D|A" | "A|D" => some (d ||| y)
  | _ => none

/-- A text with an `A` for every `M`. -/
def withA (text : String) : String :=
  String.ofList (text.toList.map fun c => if c = 'M' then 'A' else c)

theorem table?_of_mem_spellings {comp : Comp} {text : String} (h : text ∈ comp.spellings)
    (d y : Word) : table? (withA text) d y = some (eval comp d y) := by
  cases comp <;> try cases ‹Source›
  all_goals
    simp only [Comp.spellings, List.mem_cons, List.not_mem_nil, or_false] at h
    rcases h with rfl | rfl <;> rfl

/-- A text that is read as a computation is in the table, for that computation. -/
theorem table?_of_ofText {text : String} {comp : Comp} (h : Comp.ofText? text = some comp)
    (d y : Word) : table? (withA text) d y = some (eval comp d y) := by
  have hspelling := List.find?_some h
  exact table?_of_mem_spellings (List.contains_iff_mem.mp hspelling) d y

/-! ### Lines that compute -/

/-- The words for the conditions that the machine knows. -/
def mnemonics : List String := ["JGT", "JEQ", "JGE", "JLT", "JNE", "JLE", "JMP"]

theorem ofMnemonic_eq_unknown_iff {word condition : String} :
    Jump.ofMnemonic word = .unknown condition ↔ word = condition ∧ condition ∉ mnemonics := by
  unfold Jump.ofMnemonic mnemonics
  split
  iterate 7
    simp only [reduceCtorEq, false_iff]
    rintro ⟨rfl, hnot⟩
    exact hnot (by decide)
  · rename_i hgt heq hge hlt hne hle hmp
    simp only [Jump.unknown.injEq]
    constructor
    · rintro rfl
      refine ⟨rfl, ?_⟩
      simp only [List.mem_cons, List.not_mem_nil, or_false, not_or]
      exact ⟨hgt, heq, hge, hlt, hne, hle, hmp⟩
    · exact fun h => h.1

/-- The code of a line without blanks, as far as its first semicolon, and what stands behind that if
there is one. -/
def cutJump (code : List Char) : List Char × Option (List Char) :=
  let text := code.filter fun c => !isBlank c
  match cutAt ';' text with
  | some (left, right) => (left, some right)
  | none => (text, none)

/-- The computation on a line: what stands behind the first equals sign, or all of it if there is
none. -/
def writtenComp (code : List Char) : String :=
  String.ofList ((cutAt '=' (cutJump code).1).getD ([], (cutJump code).1)).2

/-- The condition on a line, if it jumps. -/
def writtenJump? (code : List Char) : Option String :=
  (cutJump code).2.map String.ofList

/-- Whether a line computes and jumps on a condition that the machine does not know. -/
def HasUnknownJump (line condition : String) : Prop :=
  ∃ code, item? line = some (.command code) ∧ code.head? ≠ some '@' ∧
    writtenJump? code = some condition ∧ condition ∉ mnemonics

theorem readCompute?_eq (code : List Char) :
    ∃ dest : Dest, readCompute? code = (Comp.ofText? (writtenComp code)).map fun comp =>
      .compute dest comp (((writtenJump? code).map Jump.ofMnemonic).getD .never) := by
  unfold readCompute? writtenComp writtenJump? cutJump
  simp only
  cases cutAt ';' (code.filter fun c => !isBlank c) with
  | none => exact ⟨_, rfl⟩
  | some cut => exact ⟨_, rfl⟩

/-- A line that loads no address is read as one that computes. -/
theorem readCommand_eq_ok_iff {code : List Char} (hat : code.head? ≠ some '@') {c : Command} :
    readCommand code = .ok c ↔ readCompute? code = some c := by
  unfold readCommand
  split
  · exact absurd rfl hat
  · cases readCompute? code <;> simp

theorem readCommand_eq_compute_iff {code : List Char} {dest : Dest} {comp : Comp} {jump : Jump} :
    readCommand code = .ok (.compute dest comp jump) ↔
      code.head? ≠ some '@' ∧ readCompute? code = some (.compute dest comp jump) := by
  by_cases hat : code.head? = some '@'
  · obtain ⟨symbol, rfl⟩ := List.head?_eq_some_iff.mp hat
    simp [readCommand]
  · simp only [ne_eq, hat, not_false_eq_true, true_and, readCommand_eq_ok_iff hat]

/-- A line of which the machine reads a command that computes. -/
theorem ofText_eq_compute_iff {line : String} {dest : Dest} {comp : Comp} {jump : Jump} :
    Line.ofText line = .command (.compute dest comp jump) ↔
      ∃ code, item? line = some (.command code) ∧ code.head? ≠ some '@' ∧
        readCompute? code = some (.compute dest comp jump) := by
  unfold Line.ofText
  cases hitem : item? line with
  | none => simp
  | some item =>
    cases item with
    | label name => simp
    | command code =>
      simp only [Option.some.injEq, Item.command.injEq, exists_eq_left',
        ← readCommand_eq_compute_iff]
      cases readCommand code <;> simp

section Loaded

variable {lines : List String} {p : Program}

/-- The commands of a loaded text are all read. -/
theorem exists_readCommand_of_load (h : load lines = .ok p) {line : String} (hline : line ∈ lines)
    {code : List Char} (hitem : item? line = some (.command code)) :
    ∃ c, readCommand code = .ok c := by
  have hread : ∀ {texts : List (List Char)} {cs : List Command}, texts.mapM readCommand = .ok cs →
      ∀ code ∈ texts, ∃ c, readCommand code = .ok c := by
    intro texts
    induction texts with
    | nil => simp
    | cons text rest ih =>
      intro cs hcs
      rw [List.mapM_cons] at hcs
      cases htext : readCommand text with
      | error e => rw [htext] at hcs; cases hcs
      | ok c =>
        cases hrest : rest.mapM readCommand with
        | error e => rw [htext, hrest] at hcs; cases hcs
        | ok others =>
          rintro code (_ | ⟨_, hcode⟩)
          · exact ⟨c, htext⟩
          · exact ih hrest code hcode
  unfold load at h
  cases hlayout : (lines.filterMap item?).foldlM Layout.add {} with
  | error e => simp [hlayout, bind, Except.bind] at h
  | ok layout =>
    cases hcs : ((lines.filterMap item?).filterMap Item.command?).mapM readCommand with
    | error e => simp [hlayout, hcs, bind, Except.bind] at h
    | ok cs =>
      refine hread hcs code (List.mem_filterMap.mpr ⟨.command code, ?_, rfl⟩)
      exact List.mem_filterMap.mpr ⟨line, hline, hitem⟩

/-- The computing instructions of a loaded text are those that are read on its lines. -/
theorem compute_mem_code_iff (h : load lines = .ok p) {dest : Dest} {comp : Comp} {jump : Jump} :
    Op.compute dest comp jump ∈ p.code ↔
      ∃ line ∈ lines, Line.ofText line = .command (.compute dest comp jump) := by
  obtain ⟨layout, -, rfl⟩ := exists_layout_of_load h
  constructor
  · intro hmem
    obtain ⟨l, hl, hcommand⟩ := List.mem_filterMap.mp (mem_of_mem_resolve hmem)
    obtain ⟨line, hline, rfl⟩ := List.mem_map.mp hl
    refine ⟨line, hline, ?_⟩
    unfold Line.command? at hcommand
    split at hcommand
    · rename_i c hc
      rw [hc, Option.some.inj hcommand]
    · cases hcommand
  · rintro ⟨line, hline, hread⟩
    have hcommand : Command.compute dest comp jump ∈ commands (readText lines) :=
      List.mem_filterMap.mpr ⟨_, List.mem_map.mpr ⟨line, hline, hread⟩, rfl⟩
    rw [resolve_eq, List.mem_toArray]
    exact List.mem_map.mpr ⟨_, hcommand, rfl⟩

/-- A loaded text has a jump on a condition that the machine does not know if and only if it is
written on a line. -/
theorem unknown_mem_code_iff (h : load lines = .ok p) {condition : String} :
    (∃ dest comp, Op.compute dest comp (.unknown condition) ∈ p.code) ↔
      ∃ line ∈ lines, HasUnknownJump line condition := by
  have hjump : ∀ {code : List Char},
      ((writtenJump? code).map Jump.ofMnemonic).getD .never = .unknown condition ↔
        writtenJump? code = some condition ∧ condition ∉ mnemonics := by
    intro code
    cases writtenJump? code with
    | none => simp
    | some word =>
      rw [Option.map_some, Option.getD_some, ofMnemonic_eq_unknown_iff, Option.some.injEq]
  constructor
  · rintro ⟨dest, comp, hmem⟩
    obtain ⟨line, hline, hread⟩ := (compute_mem_code_iff h).mp hmem
    obtain ⟨code, hitem, hat, hcompute⟩ := ofText_eq_compute_iff.mp hread
    obtain ⟨places, heq⟩ := readCompute?_eq code
    rw [heq] at hcompute
    obtain ⟨comp', -, hcommand⟩ := Option.map_eq_some_iff.mp hcompute
    obtain ⟨-, -, hcondition⟩ := Command.compute.inj hcommand
    exact ⟨line, hline, code, hitem, hat, hjump.mp hcondition⟩
  · rintro ⟨line, hline, code, hitem, hat, hcondition⟩
    obtain ⟨c, hc⟩ := exists_readCommand_of_load h hline hitem
    have hcompute := (readCommand_eq_ok_iff hat).mp hc
    obtain ⟨dest, heq⟩ := readCompute?_eq code
    rw [heq, hjump.mpr hcondition] at hcompute
    obtain ⟨comp, -, rfl⟩ := Option.map_eq_some_iff.mp hcompute
    refine ⟨dest, comp, (compute_mem_code_iff h).mpr ⟨line, hline, ?_⟩⟩
    exact ofText_eq_compute_iff.mpr ⟨code, hitem, readCommand_eq_compute_iff.mp hc⟩

end Loaded

/-! ### Faults -/

theorem operand_eq_error_iff {s : State} {comp : Comp} {f : Fault} :
    s.operand comp = .error f ↔
      source? comp = some .m ∧ memorySize ≤ s.a.toNat ∧ f = .readOutside s.a.toNat := by
  unfold State.operand
  split
  · rename_i hsource
    by_cases hcell : s.a.toNat < memorySize
    · simp [hcell, Nat.not_le_of_lt hcell]
    · simp [hcell, Nat.le_of_not_lt hcell, hsource, eq_comm]
  · rename_i hsource
    simp only [reduceCtorEq, false_iff]
    exact fun h => hsource h.1

theorem holds?_eq_error_iff {jump : Jump} {out : Word} {f : Fault} :
    holds? jump out = .error f ↔ ∃ condition, jump = .unknown condition ∧ f = .badJump condition := by
  cases jump <;> simp [holds?, eq_comm]

/-- The faults that there is no telling before a run: outside memory, and outside the program. -/
inductive IsOutside (p : Program) : Fault → Prop where
  | readOutside {cell : Nat} (h : memorySize ≤ cell) : IsOutside p (.readOutside cell)
  | writeOutside {cell : Nat} (h : memorySize ≤ cell) : IsOutside p (.writeOutside cell)
  | outsideProgram {pc : Nat} (h : p.code.size ≤ pc) : IsOutside p (.outsideProgram pc)

/-- A step that fails leaves the state as it was, unless it fails on a condition. Then it has stored
its result already. -/
theorem step_fault {p : Program} {s t : State} {f : Fault} (h : step p s = (t, some f)) :
    IsOutside p f ∧ t = s ∨
      ∃ dest comp condition y, p.code[s.pc]? = some (.compute dest comp (.unknown condition)) ∧
        s.operand comp = .ok y ∧ f = .badJump condition ∧
        t = s.store dest (eval comp s.d y) := by
  unfold step at h
  cases hop : p.code[s.pc]? with
  | none =>
    rw [hop] at h
    cases h
    exact .inl ⟨.outsideProgram (Array.getElem?_eq_none_iff.mp hop), rfl⟩
  | some op =>
    rw [hop] at h
    cases op with
    | address value => cases h
    | compute dest comp jump =>
      simp only [Op.step] at h
      cases hoperand : s.operand comp with
      | error fault =>
        rw [hoperand] at h
        cases h
        obtain ⟨-, hcell, rfl⟩ := operand_eq_error_iff.mp hoperand
        exact .inl ⟨.readOutside hcell, rfl⟩
      | ok y =>
        rw [hoperand] at h
        simp only at h
        split at h
        · rename_i hwrite
          cases h
          exact .inl ⟨.writeOutside hwrite.2, rfl⟩
        · cases hholds : holds? jump (eval comp s.d y) with
          | ok taken => rw [hholds] at h; cases h
          | error fault =>
            rw [hholds] at h
            cases h
            obtain ⟨condition, rfl, rfl⟩ := holds?_eq_error_iff.mp hholds
            exact .inr ⟨dest, comp, condition, y, rfl, hoperand, rfl, rfl⟩

/-- Where its operand and its result are in memory, a jump on an unknown condition fails on it. -/
theorem exists_badJump {p : Program} {s : State} {dest : Dest} {comp : Comp} {condition : String}
    (h : p.code[s.pc]? = some (.compute dest comp (.unknown condition)))
    (hcell : s.a.toNat < memorySize) : ∃ t, step p s = (t, some (.badJump condition)) := by
  cases hoperand : s.operand comp with
  | error f => exact absurd (operand_eq_error_iff.mp hoperand).2.1 (Nat.not_le_of_lt hcell)
  | ok y =>
    refine ⟨s.store dest (eval comp s.d y), ?_⟩
    simp only [step, h, Op.step, hoperand, holds?]
    rw [if_neg fun hwrite => Nat.not_le_of_lt hcell hwrite.2]

/-! ### Runs -/

/-- What can be asked of a loaded machine. -/
inductive Action where
  | set (cell : Fin memorySize) (value : Word)
  | run (limit : Nat)
  | runTo (label : String) (limit : Nat)

/-- Does what is asked: the state after it, and the answer of a run. -/
def Action.perform (p : Program) : Action → State → State × Option (Except RunError Nat)
  | .set cell value, s => (s.poke cell value, none)
  | .run limit, s =>
    let (t, answer) := Machine.run p limit s
    (t, some answer)
  | .runTo label limit, s =>
    let (t, answer) := Machine.runTo p label limit s
    (t, some answer)

/-- The state after a new machine did what was asked, one after the other. -/
def Program.stateAfter (p : Program) (asked : List Action) : State :=
  asked.foldl (fun s action => (action.perform p s).1) .initial

/-- The errors of an action on a machine that knows the conditions of its jumps. -/
inductive Action.MayEndIn (p : Program) : Action → RunError → Prop where
  | fault {action : Action} {f : Fault} (h : IsOutside p f) : MayEndIn p action (.fault f)
  | stillRunning {limit : Nat} : MayEndIn p (.run limit) (.stillRunning limit)
  | notReached {label : String} {limit : Nat} :
    MayEndIn p (.runTo label limit) (.notReached label limit)
  | noLabel {label : String} {limit : Nat} (h : p.labels[label]? = none) :
    MayEndIn p (.runTo label limit) (.noLabel label)

theorem error_of_steps {e : Ending} {late error : RunError} (h : e.steps late = .error error) :
    error = late ∨ ∃ f, e = .fault f ∧ error = .fault f := by
  cases e with
  | «over» steps => cases h
  | fault f => cases h; exact .inr ⟨f, rfl, rfl⟩
  | unfinished => cases h; exact .inl rfl

/-- An action ends in an error that it may end in, or in the fault of a step. -/
theorem error_of_perform {p : Program} {action : Action} {s : State} {e : RunError}
    (h : (action.perform p s).2 = some (.error e)) :
    action.MayEndIn p e ∨ ∃ f u v, e = .fault f ∧ step p u = (v, some f) := by
  have hfault : ∀ {isOver : State → Bool} {limit : Nat} {f : Fault},
      (advance p isOver limit 0 s).2 = .fault f → ∃ u v, step p u = (v, some f) := by
    intro isOver limit f hf
    exact exists_step_of_advance_fault (Prod.ext rfl hf)
  cases action with
  | set cell value => cases h
  | run limit =>
    rcases error_of_steps (Option.some.inj h) with rfl | ⟨f, hf, rfl⟩
    · exact .inl .stillRunning
    · obtain ⟨u, v, hstep⟩ := hfault hf
      exact .inr ⟨f, u, v, rfl, hstep⟩
  | runTo label limit =>
    simp only [Action.perform, runTo] at h
    cases htarget : p.labels[label]? with
    | none =>
      rw [htarget] at h
      cases h
      exact .inl (.noLabel htarget)
    | some target =>
      rw [htarget] at h
      rcases error_of_steps (Option.some.inj h) with rfl | ⟨f, hf, rfl⟩
      · exact .inl .notReached
      · obtain ⟨u, v, hstep⟩ := hfault hf
        exact .inr ⟨f, u, v, rfl, hstep⟩

/-- Every computation of a loaded machine is in the table, as it is written. A step can fail on a
condition if and only if a line jumps on one that is none of the seven. A step that fails otherwise
fails outside memory or outside the program, and it leaves the state as it was. Whatever the machine
was asked before, an action that goes wrong ends in such a fault, at its limit, without its label, or
on such a condition. -/
theorem errors_of_loaded {lines : List String} {p : Program} (h : load lines = .ok p) :
    (∀ dest comp jump, Op.compute dest comp jump ∈ p.code →
      ∃ line ∈ lines, ∃ code, item? line = some (.command code) ∧
        ∀ d y, table? (withA (writtenComp code)) d y = some (eval comp d y)) ∧
      (∀ condition, (∃ s t, step p s = (t, some (.badJump condition))) ↔
        ∃ line ∈ lines, HasUnknownJump line condition) ∧
      (∀ s t f, step p s = (t, some f) → IsOutside p f ∧ t = s ∨
        ∃ dest comp condition y, p.code[s.pc]? = some (.compute dest comp (.unknown condition)) ∧
          s.operand comp = .ok y ∧ f = .badJump condition ∧
          t = s.store dest (eval comp s.d y)) ∧
      ∀ asked action e, (Action.perform p action (p.stateAfter asked)).2 = some (.error e) →
        action.MayEndIn p e ∨ ∃ condition, e = .fault (.badJump condition) ∧
          ∃ line ∈ lines, HasUnknownJump line condition := by
  have hcondition : ∀ condition, (∃ s t, step p s = (t, some (.badJump condition))) ↔
      ∃ line ∈ lines, HasUnknownJump line condition := by
    intro condition
    rw [← unknown_mem_code_iff h]
    constructor
    · rintro ⟨s, t, hstep⟩
      exact exists_unknown_of_step hstep
    · rintro ⟨dest, comp, hmem⟩
      obtain ⟨k, hk⟩ := Array.getElem?_of_mem hmem
      obtain ⟨t, ht⟩ := exists_badJump (s := { State.initial with pc := k }) hk
        (show 0 < memorySize by decide)
      exact ⟨_, t, ht⟩
  refine ⟨?_, hcondition, fun s t f hstep => step_fault hstep, ?_⟩
  · intro dest comp jump hmem
    obtain ⟨line, hline, hread⟩ := (compute_mem_code_iff h).mp hmem
    obtain ⟨code, hitem, -, hcompute⟩ := ofText_eq_compute_iff.mp hread
    obtain ⟨places, heq⟩ := readCompute?_eq code
    rw [heq] at hcompute
    obtain ⟨comp', hcomp, hcommand⟩ := Option.map_eq_some_iff.mp hcompute
    obtain ⟨-, rfl, -⟩ := Command.compute.inj hcommand
    exact ⟨line, hline, code, hitem, table?_of_ofText hcomp⟩
  · intro asked action e he
    rcases error_of_perform he with hmay | ⟨f, u, v, rfl, hstep⟩
    · exact .inl hmay
    · rcases step_fault hstep with ⟨houtside, -⟩ | ⟨dest, comp, condition, y, -, -, rfl, -⟩
      · exact .inl (.fault houtside)
      · exact .inr ⟨condition, rfl, (hcondition condition).mp ⟨u, v, hstep⟩⟩

/-- A program that reads the cell behind the last one, and jumps on an unknown condition. -/
def outsideLines : List String :=
  ["@32767", "A = A + 1", "D=M // there is none", "D;JZE"]

theorem errors_of_loaded_outside :
    ∃ p, load outsideLines = .ok p ∧ HasUnknownJump "D;JZE" "JZE" ∧
      (∃ s t, step p s = (t, some (.badJump "JZE"))) ∧
      (Action.perform p (.run 9) (p.stateAfter [.set ⟨0, by decide⟩ 5, .run 1])).2 =
        some (.error (.fault (.readOutside 32768))) ∧
      Action.MayEndIn p (.run 9) (.fault (.readOutside 32768)) := by
  let p : Program :=
    { code := #[.address 32767, .compute { a := true } (.yPlusOne .a) .never,
        .compute { d := true } (.y .m) .never, .compute {} .d (.unknown "JZE")]
      labels := {} }
  have hload : load outsideLines = .ok p := rfl
  have hjump : HasUnknownJump "D;JZE" "JZE" :=
    ⟨"D;JZE".toList, by decide, by decide, by decide, by decide⟩
  have herror : (Action.perform p (.run 9) (p.stateAfter [.set ⟨0, by decide⟩ 5, .run 1])).2 =
      some (.error (.fault (.readOutside 32768))) := rfl
  obtain ⟨-, hcondition, -, hactions⟩ := errors_of_loaded hload
  refine ⟨p, hload, hjump, (hcondition "JZE").mpr ⟨"D;JZE", by decide, hjump⟩, herror, ?_⟩
  rcases hactions _ _ _ herror with hmay | ⟨condition, heq, -⟩
  · exact hmay
  · cases heq

/-- A line is loaded though the machine does not know its condition. When the step fails, the
memory has changed. -/
theorem unknown_jump_loaded :
    ∃ p, load ["M=1;JXX"] = .ok p ∧
      (Action.perform p (.run 10) (p.stateAfter [])).2 =
        some (.error (.fault (.badJump "JXX"))) ∧
      (step p .initial).2 = some (.badJump "JXX") ∧ State.initial.peek 0 = 0 ∧
      (step p .initial).1.peek 0 = 1 := by
  have hcell : 0 < memorySize := by decide
  refine ⟨{ code := #[.compute { m := true } .one (.unknown "JXX")], labels := {} },
    rfl, rfl, rfl, ?_, ?_⟩
  · simp [State.peek, State.initial, hcell]
  · simp [State.peek, step, Op.step, State.operand, source?, eval, holds?, State.store,
      State.initial, hcell, Nat.ne_of_gt hcell]

end HackVm.Machine
