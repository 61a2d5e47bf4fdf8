/-
What the templates do to memory.

Each template is executed once and for all, from any state of the machine: what it
leaves in memory is written as reads and writes of cells in their order, those of
the scratch cells among them, and it fails where one of them fails. The stack is
reached through cell 0 again at every push and pop, so this holds even of a stack
that runs into the cells below it.

* **`Memory.push`**, **`Memory.pop`**, **`Memory.call`**, **`Memory.leave`** — what happens in
  memory;
* **`Instruction.change`** — what an instruction does that only leads to the next one;
* **`does_body`** — its template does just that.
-/
import HackVm.Proofs.Loading
import HackVm.Proofs.StackMachine
import Mathlib.Data.Option.Basic

namespace HackVm

open Assembly Machine Template

theorem lt_of_check_temp {i : UInt16}
    (h : (if i < tempSize then .ok () else .error (.tempIndex i) :
      Except LineError.Cause Unit) = .ok ()) : i < 8 := by
  split at h
  · assumption
  · cases h

/-! ### Reads and writes -/

/-- The memory with a word in a cell, if there is such a cell. -/
def Machine.Memory.put? (m : Memory) (cell : Nat) (w : Word) : Option Memory :=
  if cell < memorySize then some (m.setIfInBounds cell w) else none

/-- The word is stored where cell 0 points, and then cell 0 is raised. -/
def Machine.Memory.push (m : Memory) (w : Word) : Option Memory := do
  let sp ← m[0]?
  let m ← m.put? sp.toNat w
  let sp ← m[0]?
  m.put? 0 (sp + 1)

/-- Cell 0 is lowered, and then the word is read where it points. -/
def Machine.Memory.pop (m : Memory) : Option (Word × Memory) := do
  let sp ← m[0]?
  let m ← m.put? 0 (sp - 1)
  let sp ← m[0]?
  let w ← m[sp.toNat]?
  return (w, m)

/-- Pops into a cell. -/
def Machine.Memory.popInto (m : Memory) (cell : Nat) : Option Memory := do
  let (w, m) ← m.pop
  m.put? cell w

/-- Pushes the word in a cell. -/
def Machine.Memory.pushCell (m : Memory) (cell : Nat) : Option Memory := do
  let w ← m[cell]?
  m.push w

/-- Pushes the word at an index from the base in a cell. -/
def Machine.Memory.pushAt (m : Memory) (cell : Nat) (index : Word) : Option Memory := do
  let base ← m[cell]?
  m.pushCell (index + base).toNat

/-- Pops into the word at an index from the base in a cell. -/
def Machine.Memory.popAt (m : Memory) (cell : Nat) (index : Word) : Option Memory := do
  let m ← m.popInto 13
  let base ← m[cell]?
  let m ← m.put? 14 (index + base)
  let w ← m[13]?
  let target ← m[14]?
  m.put? target.toNat w

/-- Replaces the two topmost words by the result of an operation on them. -/
def Machine.Memory.binary (m : Memory) (op : Word → Word → Word) : Option Memory := do
  let m ← m.popInto 13
  let m ← m.popInto 14
  let x ← m[14]?
  let y ← m[13]?
  let m ← m.put? 13 (op x y)
  m.pushCell 13

/-- Replaces the topmost word by the result of an operation on it. -/
def Machine.Memory.unary (m : Memory) (op : Word → Word) : Option Memory := do
  let m ← m.popInto 13
  let x ← m[13]?
  let m ← m.put? 13 (op x)
  m.pushCell 13

/-- Replaces the two topmost words by the result of a comparison. -/
def Machine.Memory.compare (m : Memory) (op : Word → Word → Word) : Option Memory := do
  let m ← m.popInto 13
  let m ← m.popInto 14
  let x ← m[14]?
  let y ← m[13]?
  m.push (op x y)

/-- Pushes zeros. -/
def Machine.Memory.pushZeros (m : Memory) : Nat → Option Memory
  | 0 => some m
  | n + 1 => do (← m.push 0).pushZeros n

/-- Pushes the frame of a call, whose words and arguments are as many as given, and sets the bases
of the arguments and of the local words. -/
def Machine.Memory.call (m : Memory) (returnTo depth : Word) : Option Memory := do
  let m ← m.push returnTo
  let m ← m.pushCell 1
  let m ← m.pushCell 2
  let m ← m.pushCell 3
  let m ← m.pushCell 4
  let sp ← m[0]?
  let m ← m.put? 2 (sp - depth)
  let sp ← m[0]?
  m.put? 1 sp

/-- Lowers scratch cell 13 and restores a cell from where it points. -/
def Machine.Memory.restore (m : Memory) (cell : Nat) : Option Memory := do
  let frame ← m[13]?
  let m ← m.put? 13 (frame - 1)
  let w ← m[(frame - 1).toNat]?
  m.put? cell w

/-- Saves the base of the local words and the return address in the scratch cells. -/
def Machine.Memory.save (m : Memory) : Option Memory := do
  let frame ← m[1]?
  let m ← m.put? 13 frame
  let target ← m[(frame - 5).toNat]?
  m.put? 14 target

/-- Pops the result of a function into the place of its first argument, where the stack ends
then. -/
def Machine.Memory.result (m : Memory) : Option Memory := do
  let (w, m) ← m.pop
  let arg ← m[2]?
  let m ← m.put? arg.toNat w
  let arg ← m[2]?
  m.put? 0 (arg + 1)

/-- Leaves a function: the memory after it, and the address to go to. -/
def Machine.Memory.leave (m : Memory) : Option (Memory × Word) := do
  let m ← m.save
  let m ← m.result
  let m ← m.restore 4
  let m ← m.restore 3
  let m ← m.restore 2
  let m ← m.restore 1
  let target ← m[14]?
  return (m, target)

/-! ### Instructions that lead to the next one -/

/-- What an instruction does to memory if it does not jump, call or return. Names stand for the
given words. -/
def Instruction.change (value : String → Word) (scope : Scope) (i : Instruction) (m : Memory) :
    Option Memory :=
  match i with
  | .pushConstant n => m.push n.toBitVec
  | .pushSegment segment index => m.pushAt segment.cell index.toBitVec
  | .popSegment segment index => m.popAt segment.cell index.toBitVec
  | .pushStatic index => m.pushCell (value (scope.static index)).toNat
  | .popStatic index => m.popInto (value (scope.static index)).toNat
  | .pushPointer slot => m.pushCell slot.cell
  | .popPointer slot => m.popInto slot.cell
  | .pushTemp index => m.pushCell (5 + index.toNat)
  | .popTemp index => m.popInto (5 + index.toNat)
  | .binary op => m.binary op.eval
  | .unary op => m.unary op.eval
  | .compare op => m.compare op.eval
  | .function _ n => m.pushZeros n.toNat
  | _ => some m

/-! ### Executing code -/

/-- What the names of cells and the numbers in templates stand for. -/
structure Standard (value : String → Word) : Prop where
  sp : value "SP" = 0
  lcl : value "LCL" = 1
  arg : value "ARG" = 2
  this : value "THIS" = 3
  that : value "THAT" = 4
  scratchA : value "R13" = 13
  scratchB : value "R14" = 14
  temp : ∀ i : UInt16, i < 8 → value (tempCell i) = BitVec.ofNat 16 (5 + i.toNat)
  number : ∀ n, n < 65536 → value (toString n) = BitVec.ofNat 16 n

/-- The instructions on lines. -/
def ops (value : String → Word) (ls : List Line) : List Op :=
  (commands ls).map (resolved value)

theorem ops_append (value : String → Word) (first second : List Line) :
    ops value (first ++ second) = ops value first ++ ops value second := by
  simp [ops, commands]

/-- The second operand of a computation, from memory or the address register. -/
def fetch? (m : Memory) (a : Word) (comp : Comp) : Option Word :=
  match source? comp with
  | some .m => m[a.toNat]?
  | _ => some a

theorem toOption_operand (m : Memory) (a d : Word) (pc : Nat) (comp : Comp) :
    (State.operand ⟨m, a, d, pc⟩ comp).toOption = fetch? m a comp := by
  unfold State.operand fetch?
  cases source? comp with
  | none => rfl
  | some source =>
    cases source with
    | a => rfl
    | m =>
      -- what is read is what the cell holds, if there is such a cell
      cases m[a.toNat]? <;> simp [Except.toOption]

theorem execute_compute (dest : Dest) (comp : Comp) (rest : List Op) (m : Memory) (a d : Word)
    (pc : Nat) :
    execute (.compute dest comp .never :: rest) ⟨m, a, d, pc⟩ =
      (fetch? m a comp).bind fun y =>
        (if dest.m then m.put? a.toNat (Machine.eval comp d y) else some m).bind fun m' =>
          execute rest ⟨m', if dest.a then Machine.eval comp d y else a,
            if dest.d then Machine.eval comp d y else d, pc + 1⟩ := by
  rw [execute, Op.step, ← toOption_operand m a d pc comp]
  cases State.operand ⟨m, a, d, pc⟩ comp with
  | error f => rfl
  | ok y =>
    simp only [Except.toOption, Option.bind_some, State.store, holds?, Memory.put?]
    by_cases hm : dest.m
    · by_cases hcell : memorySize ≤ a.toNat
      · simp [hm, hcell, Nat.not_lt_of_le hcell]
      · simp [hm, hcell, Nat.lt_of_not_le hcell]
    · simp [hm]

/-! ### Executing lines -/

section Lines

variable (value : String → Word) (rest : List Line) (m : Memory) (a d : Word) (pc : Nat)

@[simp] theorem execute_nil (s : State) : execute (ops value []) s = some s := rfl

@[simp] theorem execute_ops_append (first second : List Line) (s : State) :
    execute (ops value (first ++ second)) s =
      (execute (ops value first) s).bind (execute (ops value second)) := by
  rw [ops_append, execute_append]

@[simp] theorem execute_load (symbol : String) :
    execute (ops value (Template.load symbol :: rest)) ⟨m, a, d, pc⟩ =
      execute (ops value rest) ⟨m, value symbol, d, pc + 1⟩ := rfl

@[simp] theorem execute_loadNumber (n : Nat) :
    execute (ops value (loadNumber n :: rest)) ⟨m, a, d, pc⟩ =
      execute (ops value rest) ⟨m, value (toString n), d, pc + 1⟩ := rfl

@[simp] theorem execute_setA (comp : Comp) :
    execute (ops value (setA comp :: rest)) ⟨m, a, d, pc⟩ =
      (fetch? m a comp).bind fun y =>
        execute (ops value rest) ⟨m, Machine.eval comp d y, d, pc + 1⟩ :=
  execute_compute { a := true } comp _ m a d pc

@[simp] theorem execute_setD (comp : Comp) :
    execute (ops value (setD comp :: rest)) ⟨m, a, d, pc⟩ =
      (fetch? m a comp).bind fun y =>
        execute (ops value rest) ⟨m, a, Machine.eval comp d y, pc + 1⟩ :=
  execute_compute { d := true } comp _ m a d pc

@[simp] theorem execute_setM (comp : Comp) :
    execute (ops value (setM comp :: rest)) ⟨m, a, d, pc⟩ =
      (fetch? m a comp).bind fun y => (m.put? a.toNat (Machine.eval comp d y)).bind fun m =>
        execute (ops value rest) ⟨m, a, d, pc + 1⟩ :=
  execute_compute { m := true } comp _ m a d pc

@[simp] theorem execute_setAM (comp : Comp) :
    execute (ops value (setAM comp :: rest)) ⟨m, a, d, pc⟩ =
      (fetch? m a comp).bind fun y => (m.put? a.toNat (Machine.eval comp d y)).bind fun m =>
        execute (ops value rest) ⟨m, Machine.eval comp d y, d, pc + 1⟩ :=
  execute_compute { a := true, m := true } comp _ m a d pc

@[simp] theorem execute_label (name : String) (s : State) :
    execute (ops value (.label name :: rest)) s = execute (ops value rest) s := rfl

@[simp] theorem execute_jumpAlways :
    execute (ops value (jumpAlways :: rest)) ⟨m, a, d, pc⟩ =
      execute (ops value rest) ⟨m, a, d, a.toNat⟩ := rfl

theorem execute_jumpIfNot :
    execute (ops value [jumpOnD .ne]) ⟨m, a, d, pc⟩ =
      some ⟨m, a, d, if d = 0 then pc + 1 else a.toNat⟩ := by
  have hzero : d.toInt = 0 ↔ d = 0 := by
    rw [← BitVec.toInt_zero (w := 16), BitVec.toInt_inj]
    rfl
  change execute [.compute {} .d .ne] ⟨m, a, d, pc⟩ = _
  by_cases hd : d = 0
  · simp [execute, Op.step, State.operand, source?, holds?, Machine.eval, State.store, hd]
  · simp [execute, Op.step, State.operand, source?, holds?, Machine.eval, State.store, hzero]

/-- The comments of a frame are no code. -/
@[simp] theorem ops_framed (title : String) (body : List Line) :
    ops value (framed title body) = ops value body := by
  have hclosing : ops value [Line.closing title] = [] := rfl
  rw [framed, ops_append, hclosing, List.append_nil]
  rfl

end Lines

/-! ### Pieces of templates -/

section Pieces

variable {value : String → Word} (h : Standard value) (m : Memory) (a d : Word) (pc : Nat)

include h

theorem execute_pushD :
    execute (ops value pushD) ⟨m, a, d, pc⟩ = (m.push d).map fun m => ⟨m, 0, d, pc + 5⟩ := by
  simp [pushD, h.sp, fetch?, source?, Machine.eval, Memory.push, Option.map_eq_bind,
    Option.bind_assoc]

theorem execute_popD :
    execute (ops value popD) ⟨m, a, d, pc⟩ =
      m.pop.map fun r => ⟨r.2, r.2[0], r.1, pc + 4⟩ := by
  have hsp : ∀ m : Memory, m[0]? = some m[0] := fun _ => rfl
  simp [popD, h.sp, fetch?, source?, Machine.eval, Memory.pop, Option.map_eq_bind,
    Option.bind_assoc, hsp]

theorem execute_popTo (cell : String) :
    execute (ops value (popTo cell)) ⟨m, a, d, pc⟩ =
      (m.popInto (value cell).toNat).map fun m' =>
        ⟨m', value cell, (m.pop.map Prod.fst).getD 0, pc + 6⟩ := by
  cases hpop : m.pop <;>
    simp [popTo, execute_popD h, fetch?, source?, Machine.eval, Option.map_eq_bind,
      Memory.popInto, hpop]

theorem number_index (i : UInt16) : value i.toNat.repr = i.toBitVec := by
  have hnumber : value i.toNat.repr = BitVec.ofNat 16 i.toNat := h.number i.toNat i.toNat_lt
  rw [hnumber]
  exact BitVec.eq_of_toNat_eq (by simp)

/-- A number is loaded as the word that it is, whatever its sign. -/
theorem execute_loadD (n : Int16) :
    ∃ a' pc', execute (ops value (loadD n)) ⟨m, a, d, pc⟩ = some ⟨m, a', n.toBitVec, pc'⟩ := by
  have hlow : -2 ^ 15 ≤ n.toInt := n.le_toInt
  have hhigh : n.toInt < 2 ^ 15 := n.toInt_lt
  have hsmall : ∀ k : Nat, k < 2 ^ 15 → (BitVec.ofNat 16 k).toInt = k := by
    intro k hk
    rw [BitVec.toInt_ofNat', Int.bmod_def]
    omega
  unfold loadD
  split
  · rename_i hn
    rw [Int16.le_iff_toInt_le] at hn
    have hn : 0 ≤ n.toInt := hn
    refine ⟨BitVec.ofNat 16 n.toInt.toNat, pc + 2, ?_⟩
    rw [execute_loadNumber, h.number _ (by omega), execute_setD]
    have hword : BitVec.ofNat 16 n.toInt.toNat = n.toBitVec := by
      refine BitVec.eq_of_toInt_eq ?_
      rw [hsmall _ (by omega)]
      exact Int.toNat_of_nonneg hn
    rw [hword]
    rfl
  · split
    · rename_i hmin
      refine ⟨BitVec.ofNat 16 32767, pc + 3, ?_⟩
      rw [execute_loadNumber, h.number _ (by omega), execute_setD]
      subst hmin
      have hword : -32767#16 - 1 = Int16.minValue.toBitVec := by decide
      simp only [fetch?, source?, Option.bind_some, Machine.eval, execute_setD, execute_nil, hword]
    · rename_i hn hmin
      rw [Int16.le_iff_toInt_le, Int.not_le] at hn
      have hn : n.toInt < 0 := hn
      refine ⟨BitVec.ofNat 16 (-n.toInt).toNat, pc + 2, ?_⟩
      rw [execute_loadNumber, h.number _ (by omega), execute_setD]
      have hword : -BitVec.ofNat 16 (-n.toInt).toNat = n.toBitVec := by
        have hne : n.toInt ≠ -2 ^ 15 := fun heq => hmin (Int16.toInt_inj.mp heq)
        refine BitVec.eq_of_toInt_eq ?_
        rw [BitVec.toInt_neg, hsmall _ (by omega), Int.toNat_of_nonneg (by omega), Int.neg_neg]
        exact BitVec.toInt_bmod_cancel n.toBitVec
      simp only [fetch?, source?, Option.bind_some, Machine.eval, hword]
      rfl

end Pieces

/-- Whether lines do to memory what they should, whatever the registers hold. -/
def Does (value : String → Word) (ls : List Line) (f : Memory → Option Memory) : Prop :=
  ∀ m a d pc, (execute (ops value ls) ⟨m, a, d, pc⟩).map State.memory = f m

theorem Does.append {value : String → Word} {first second : List Line}
    {f g : Memory → Option Memory} (hf : Does value first f) (hg : Does value second g) :
    Does value (first ++ second) fun m => (f m).bind g := by
  intro m a d pc
  show _ = (f m).bind g
  rw [execute_ops_append, ← hf m a d pc]
  cases execute (ops value first) ⟨m, a, d, pc⟩ with
  | none => rfl
  | some s => exact hg s.memory s.a s.d s.pc

/-- Lines that do something to memory, and behind them a jump. -/
theorem Does.goto {value : String → Word} {ls : List Line} {f : Memory → Option Memory}
    (hf : Does value ls f) (symbol : String) (m : Memory) (a d : Word) (pc : Nat) :
    (execute (ops value (ls ++ goto symbol)) ⟨m, a, d, pc⟩).map State.result =
      (f m).map fun m => (m, (value symbol).toNat) := by
  rw [execute_ops_append, ← hf m a d pc]
  cases execute (ops value ls) ⟨m, a, d, pc⟩ with
  | none => rfl
  | some s => rfl

section Templates

variable {value : String → Word} (h : Standard value)

include h

theorem does_pushNumber (n : Int16) : Does value (pushNumber n) fun m => m.push n.toBitVec := by
  intro m a d pc
  unfold pushNumber
  split
  · rename_i hn
    subst hn
    simp [h.sp, fetch?, source?, Machine.eval, Memory.push, Option.map_eq_bind, Option.bind_assoc]
  · obtain ⟨a', pc', hload⟩ := execute_loadD h m a d pc n
    simp [hload, execute_pushD h, Function.comp_def]

theorem does_pushCell (cell : String) :
    Does value (pushCell cell) fun m => m.pushCell (value cell).toNat := by
  intro m a d pc
  simp [pushCell, execute_pushD h, fetch?, source?, Machine.eval, Memory.pushCell,
    Option.map_eq_bind, Option.bind_assoc]

theorem does_popTo (cell : String) :
    Does value (popTo cell) fun m => m.popInto (value cell).toNat := by
  intro m a d pc
  simp [execute_popTo h, Function.comp_def]

theorem does_pushBased (base : String) (index : UInt16) :
    Does value (pushBased base index) fun m => m.pushAt (value base).toNat index.toBitVec := by
  intro m a d pc
  simp [pushBased, execute_pushD h, number_index h, fetch?, source?, Machine.eval, Memory.pushAt,
    Memory.pushCell, Option.map_eq_bind, Option.bind_assoc]

theorem does_popBased (base : String) (index : UInt16) :
    Does value (popBased base index) fun m => m.popAt (value base).toNat index.toBitVec := by
  intro m a d pc
  simp [popBased, execute_popTo h, number_index h, scratchA, scratchB, h.scratchA, h.scratchB,
    fetch?, source?, Machine.eval, Memory.popAt, Option.map_eq_bind, Option.bind_assoc]

theorem does_binary (op : BinaryOp) : Does value (binary op) fun m => m.binary op.eval := by
  intro m a d pc
  cases op <;>
    simp [Template.binary, execute_popTo h, execute_pushD h, scratchA, scratchB, h.scratchA,
      h.scratchB, fetch?, source?, Machine.eval, BinaryOp.comp, BinaryOp.eval, Memory.binary,
      Memory.pushCell, Option.map_eq_bind, Option.bind_assoc]

theorem does_unary (op : UnaryOp) : Does value (unary op) fun m => m.unary op.eval := by
  intro m a d pc
  cases op <;>
    simp [Template.unary, execute_popTo h, execute_pushD h, scratchA, h.scratchA, fetch?, source?,
      Machine.eval, UnaryOp.comp, UnaryOp.eval, Memory.unary, Memory.pushCell,
      Option.map_eq_bind, Option.bind_assoc]

theorem does_zeros (n : Nat) :
    Does value (List.replicate n (pushConstant 0)).flatten fun m => m.pushZeros n := by
  induction n with
  | zero => exact fun _ _ _ _ => rfl
  | succ n ih =>
    intro m a d pc
    have hpush := does_pushNumber h 0 m a d pc
    change _ = Memory.pushZeros m (n + 1)
    rw [List.replicate_succ, List.flatten_cons, execute_ops_append, pushConstant, ops_framed,
      Memory.pushZeros]
    cases hexec : execute (ops value (pushNumber 0)) ⟨m, a, d, pc⟩ with
    | none =>
      rw [hexec] at hpush
      rw [show Memory.push m 0 = none from hpush.symm]
      rfl
    | some s =>
      rw [hexec] at hpush
      rw [show Memory.push m 0 = some s.memory from hpush.symm]
      exact ih s.memory s.a s.d s.pc

theorem toNat_baseSymbol (segment : Segment) :
    (value segment.baseSymbol).toNat = segment.cell := by
  cases segment <;> simp [Segment.baseSymbol, Segment.cell, h.lcl, h.arg, h.this, h.that]

theorem toNat_slotSymbol (slot : PointerSlot) : (value slot.symbol).toNat = slot.cell := by
  cases slot <;>
    simp [PointerSlot.symbol, Segment.baseSymbol, PointerSlot.cell, h.this, h.that]

theorem toNat_tempCell {i : UInt16} (hi : i < 8) : (value (tempCell i)).toNat = 5 + i.toNat := by
  have hi : i.toNat < 8 := hi
  rw [h.temp i hi, BitVec.toNat_ofNat]
  omega

/-- Whether an instruction is followed by the next one, and has no jump in its template. -/
def Instruction.isStraight : Instruction → Bool
  | .compare _ | .goto _ | .ifGoto _ | .call .. | .return => false
  | _ => true

theorem does_body {scope : Scope} (labels : Labels) {i : Instruction} (hi : i.isStraight)
    (hcheck : i.check = .ok ()) : Does value (body scope labels i) (i.change value scope) := by
  cases i with
  | pushConstant n => exact does_pushNumber h n
  | pushSegment segment index =>
    have := does_pushBased h segment.baseSymbol index
    rwa [toNat_baseSymbol h] at this
  | popSegment segment index =>
    have := does_popBased h segment.baseSymbol index
    rwa [toNat_baseSymbol h] at this
  | pushStatic index => exact does_pushCell h (scope.static index)
  | popStatic index => exact does_popTo h (scope.static index)
  | pushPointer slot =>
    have := does_pushCell h slot.symbol
    rwa [toNat_slotSymbol h] at this
  | popPointer slot =>
    have := does_popTo h slot.symbol
    rwa [toNat_slotSymbol h] at this
  | pushTemp index =>
    have := does_pushCell h (tempCell index)
    rwa [toNat_tempCell h (lt_of_check_temp hcheck)] at this
  | popTemp index =>
    have := does_popTo h (tempCell index)
    rwa [toNat_tempCell h (lt_of_check_temp hcheck)] at this
  | binary op => exact does_binary h op
  | unary op => exact does_unary h op
  | label name => exact fun _ _ _ _ => rfl
  | function name n => exact does_zeros h n.toNat
  | _ => cases hi

/-! ### Templates that jump -/

theorem execute_ifGoto (symbol : String) (m : Memory) (a d : Word) (pc : Nat) :
    (execute (ops value (ifGoto symbol)) ⟨m, a, d, pc⟩).map State.result =
      m.pop.map fun r => (r.2, if r.1 = 0 then pc + 6 else (value symbol).toNat) := by
  simp [ifGoto, execute_popD h, execute_jumpIfNot, Option.map_eq_bind, Option.bind_assoc,
    Function.comp_def, State.result]

/-- The return address and the bases of the segments are pushed, and the new bases are set. -/
theorem does_frame (symbol : String) (depth : Nat) :
    Does value ([load symbol, setD (.y .a)] ++ pushD ++ (frame.flatMap pushCell ++
      [load "SP", setD (.y .m), loadNumber depth, setD (.dMinusY .a), load "ARG", setM .d,
        load "SP", setD (.y .m), load "LCL", setM .d]))
      fun m => m.call (value symbol) (value (toString depth)) := by
  have hreturn : Does value ([load symbol, setD (.y .a)] ++ pushD) fun m =>
      m.push (value symbol) := by
    intro m a d pc
    simp [execute_pushD h, fetch?, source?, Machine.eval, Function.comp_def]
  have hlcl := does_pushCell h "LCL"
  have harg := does_pushCell h "ARG"
  have hthis := does_pushCell h "THIS"
  have hthat := does_pushCell h "THAT"
  have hbases : Does value [load "SP", setD (.y .m), loadNumber depth, setD (.dMinusY .a),
      load "ARG", setM .d, load "SP", setD (.y .m), load "LCL", setM .d] fun m =>
      m[0]?.bind fun sp => (m.put? 2 (sp - value (toString depth))).bind fun m =>
        m[0]?.bind fun sp => m.put? 1 sp := by
    intro m a d pc
    simp [h.sp, h.arg, h.lcl, fetch?, source?, Machine.eval, Option.map_eq_bind,
      Option.bind_assoc]
  rw [h.lcl] at hlcl
  rw [h.arg] at harg
  rw [h.this] at hthis
  rw [h.that] at hthat
  exact hreturn.append (hlcl.append (harg.append (hthis.append (hthat.append hbases))))

theorem execute_call (name : String) (args : UInt16) (id : Nat) (m : Memory) (a d : Word)
    (pc : Nat) :
    (execute (ops value (call name args id)) ⟨m, a, d, pc⟩).map State.result =
      (m.call (value (returnLabel name id)) (value (toString (args.toNat + 5)))).map fun m =>
        (m, (value name).toNat) :=
  (does_frame h (returnLabel name id) (args.toNat + 5)).goto name m a d pc

theorem does_restore (cell : String) :
    Does value [load scratchA, setAM (.yMinusOne .m), setD (.y .m), load cell, setM .d] fun m =>
      m.restore (value cell).toNat := by
  intro m a d pc
  simp [scratchA, h.scratchA, fetch?, source?, Machine.eval, Memory.restore, Option.map_eq_bind,
    Option.bind_assoc]

theorem execute_ret (m : Memory) (a d : Word) (pc : Nat) :
    (execute (ops value ret) ⟨m, a, d, pc⟩).map State.result =
      m.leave.map fun r => (r.1, r.2.toNat) := by
  have hfive : value (Nat.repr 5) = 5 := h.number 5 (by omega)
  -- the frame and the return address are saved before the result can overwrite them
  have hsave : Does value [load "LCL", setD (.y .m), load scratchA, setM .d, loadNumber 5,
      setA (.dMinusY .a), setD (.y .m), load scratchB, setM .d] fun m => m.save := by
    intro m a d pc
    simp [h.lcl, scratchA, scratchB, h.scratchA, h.scratchB, hfive, fetch?, source?, Machine.eval,
      Memory.save, Option.map_eq_bind, Option.bind_assoc]
  have hresult : Does value (popD ++ [load "ARG", setA (.y .m), setM .d, load "ARG",
      setD (.yPlusOne .m), load "SP", setM .d]) fun m => m.result := by
    intro m a d pc
    simp [execute_popD h, h.sp, h.arg, fetch?, source?, Machine.eval, Memory.result,
      Option.map_eq_bind, Option.bind_assoc]
  have hthat := does_restore h "THAT"
  have hthis := does_restore h "THIS"
  have harg := does_restore h "ARG"
  have hlcl := does_restore h "LCL"
  rw [h.that] at hthat
  rw [h.this] at hthis
  rw [h.arg] at harg
  rw [h.lcl] at hlcl
  have hrestore := hthat.append (hthis.append (harg.append hlcl))
  have hall := hsave.append (hresult.append hrestore) m a d pc
  generalize hlines : [load "LCL", setD (.y .m), load scratchA, setM .d, loadNumber 5,
      setA (.dMinusY .a), setD (.y .m), load scratchB, setM .d] ++ _ = lines at hall
  have hret : ret = lines ++ [load scratchB, setA (.y .m), jumpAlways] := by
    rw [← hlines]
    rfl
  have hleave : m.leave = ((execute (ops value lines) ⟨m, a, d, pc⟩).map State.memory).bind
      fun m => m[14]?.bind fun target => some (m, target) := by
    rw [hall]
    simp only [Memory.leave, Option.bind_eq_bind, Option.bind_assoc, Option.pure_def]
    rfl
  rw [hret, execute_ops_append, hleave]
  cases execute (ops value lines) ⟨m, a, d, pc⟩ with
  | none => rfl
  | some s =>
    obtain ⟨m, a, d, pc⟩ := s
    cases hcell : m[14]? <;>
      simp [scratchB, h.scratchB, fetch?, source?, Machine.eval, State.result, hcell]

end Templates

end HackVm
