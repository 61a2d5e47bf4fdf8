/-
The stack machine.

It carries out the blocks of a program themselves, on the memory of the target
machine: cell 0 holds the address of the first word above the stack, cells 1 to 4
the bases of the segments, and static words take the cells from 16 on in the order
in which they are first used. A push stores and then raises cell 0; a pop lowers
cell 0 and then reads. The stack machine knows nothing of the scratch cells 13 and
14: an instruction that would touch one of them, or a cell outside of memory,
cannot be carried out, and neither can a call whose frame has 65536 words or more.

* **`StackMachine.step`** — one block, from the place of the machine in the program to where the
  block leads;
* **`StackMachine.Reaches`** — any number of blocks, one after the other.

A call pushes the address that the code behind it has in the target program, and a
return goes to the first block that has the address it finds.
-/
import HackVm.Proofs.BlockLines
import HackVm.Proofs.Execution

namespace HackVm

open Machine

/-! ### Operations -/

/-- The cell that holds the base of a segment. -/
def Segment.cell : Segment → Nat
  | .local => 1
  | .argument => 2
  | .this => 3
  | .that => 4

/-- The cell of a pointer. -/
def PointerSlot.cell : PointerSlot → Nat
  | .this => 3
  | .that => 4

/-- The result of a binary operation. Sums and differences wrap around. -/
def BinaryOp.eval (op : BinaryOp) (x y : Word) : Word :=
  match op with
  | .add => x + y
  | .sub => x - y
  | .and => x &&& y
  | .or => x ||| y

/-- The result of a unary operation. -/
def UnaryOp.eval (op : UnaryOp) (x : Word) : Word :=
  match op with
  | .neg => -x
  | .not => ~~~x

/-- Whether two words, read signed, compare as asked. -/
def CompareOp.Holds (op : CompareOp) (x y : Word) : Prop :=
  match op with
  | .eq => x = y
  | .gt => y.toInt < x.toInt
  | .lt => x.toInt < y.toInt

instance (op : CompareOp) (x y : Word) : Decidable (op.Holds x y) :=
  match op with
  | .eq => inferInstanceAs (Decidable (x = y))
  | .gt => inferInstanceAs (Decidable (y.toInt < x.toInt))
  | .lt => inferInstanceAs (Decidable (x.toInt < y.toInt))

/-- The result of a comparison. -/
def CompareOp.eval (op : CompareOp) (x y : Word) : Word :=
  if op.Holds x y then -1 else 0

namespace StackMachine

/-! ### Memory -/

/-- The cells that the stack machine does not know. -/
def IsScratch (cell : Nat) : Prop :=
  cell = 13 ∨ cell = 14

instance (cell : Nat) : Decidable (IsScratch cell) :=
  inferInstanceAs (Decidable (_ ∨ _))

/-- The word in a cell. -/
def read (m : Memory) (cell : Nat) : Option Word :=
  if IsScratch cell then none else m[cell]?

/-- The memory with a word in a cell. -/
def write (m : Memory) (cell : Nat) (w : Word) : Option Memory :=
  if IsScratch cell ∨ memorySize ≤ cell then none else some (m.setIfInBounds cell w)

/-- Pushes a word. -/
def push (m : Memory) (w : Word) : Option Memory := do
  let sp ← read m 0
  let m ← write m sp.toNat w
  let sp ← read m 0
  write m 0 (sp + 1)

/-- Pops a word. -/
def pop (m : Memory) : Option (Word × Memory) := do
  let sp ← read m 0
  let m ← write m 0 (sp - 1)
  let w ← read m (sp - 1).toNat
  return (w, m)

/-- Pops a word into a cell. -/
def popInto (m : Memory) (cell : Nat) : Option Memory := do
  let (w, m) ← pop m
  write m cell w

/-- Replaces the two topmost words. -/
def binary (m : Memory) (op : Word → Word → Word) : Option Memory := do
  let (y, m) ← pop m
  let (x, m) ← pop m
  push m (op x y)

/-- Pushes the word in a cell. -/
def pushCell (m : Memory) (cell : Nat) : Option Memory := do
  push m (← read m cell)

/-- Pushes zeros. -/
def pushZeros (m : Memory) : Nat → Option Memory
  | 0 => some m
  | n + 1 => do pushZeros (← push m 0) n

/-- The cell at an index of a segment. Addresses wrap around. -/
def segmentCell (m : Memory) (segment : Segment) (index : UInt16) : Option Nat := do
  let base ← read m segment.cell
  return (base + index.toBitVec).toNat

/-- Saves the return address and the bases of the segments on the stack, above the arguments, and
sets the bases for the function that is called. -/
def call (m : Memory) (returnTo : Word) (args : UInt16) : Option Memory :=
  if 65536 ≤ args.toNat + 5 then none
  else do
    let m ← push m returnTo
    let m ← pushCell m 1
    let m ← pushCell m 2
    let m ← pushCell m 3
    let m ← pushCell m 4
    let sp ← read m 0
    let m ← write m 2 (sp - (args.toBitVec + 5))
    let sp ← read m 0
    write m 1 sp

/-- Puts the topmost word in the place of the first argument, takes the stack down to it, and
restores the bases of the segments: the memory after that, and the return address. -/
def leave (m : Memory) : Option (Memory × Word) := do
  let frame ← read m 1
  let returnTo ← read m (frame - 5).toNat
  let (w, m) ← pop m
  let arg ← read m 2
  let m ← write m arg.toNat w
  let arg ← read m 2
  let m ← write m 0 (arg + 1)
  let that ← read m (frame - 1).toNat
  let m ← write m 4 that
  let this ← read m (frame - 2).toNat
  let m ← write m 3 this
  let argument ← read m (frame - 3).toNat
  let m ← write m 2 argument
  let «local» ← read m (frame - 4).toNat
  let m ← write m 1 «local»
  return (m, returnTo)

/-! ### Room on the stack -/

theorem push_eq {m : Memory} {sp : Word} (hsp : m[0]? = some sp) (hlow : 15 ≤ sp.toNat)
    (hhigh : sp.toNat < memorySize) (w : Word) :
    push m w = some ((m.setIfInBounds sp.toNat w).setIfInBounds 0 (sp + 1)) := by
  have hscratch : ¬ (IsScratch sp.toNat ∨ memorySize ≤ sp.toNat) := by
    unfold IsScratch
    omega
  have hzero : ¬ (IsScratch 0 ∨ memorySize ≤ 0) := by decide
  have hread : read (m.setIfInBounds sp.toNat w) 0 = some sp := by
    rw [read, if_neg (by decide), Vector.getElem?_setIfInBounds_ne (by omega), hsp]
  simp only [push, write, show read m 0 = some sp from hsp, hscratch, if_false, hread, hzero,
    Option.bind_eq_bind, Option.bind_some]

/-- Whether there is room for so many words on the stack. -/
def Room (m : Memory) (n : Nat) : Prop :=
  ∃ sp : Word, m[0]? = some sp ∧ 15 ≤ sp.toNat ∧ sp.toNat + n ≤ memorySize

theorem Room.push {m : Memory} {n : Nat} (h : Room m (n + 1)) (w : Word) :
    ∃ m', push m w = some m' ∧ Room m' n := by
  obtain ⟨sp, hsp, hlow, hhigh⟩ := h
  refine ⟨_, push_eq hsp hlow (by omega) w, sp + 1, ?_, ?_⟩
  · exact Vector.getElem?_setIfInBounds_self_of_lt (by decide)
  · have : (sp + 1).toNat = sp.toNat + 1 := by
      have hone : (1 : Word).toNat = 1 := rfl
      unfold memorySize at hhigh
      rw [BitVec.toNat_add]
      omega
    omega

theorem Room.pushCell {m : Memory} {n : Nat} (h : Room m (n + 1)) (cell : Nat)
    (hcell : cell < memorySize) (hscratch : ¬ IsScratch cell) :
    ∃ m', pushCell m cell = some m' ∧ Room m' n := by
  obtain ⟨m', hm', h'⟩ := h.push m[cell]
  refine ⟨m', ?_, h'⟩
  rw [StackMachine.pushCell, read, if_neg hscratch, Vector.getElem?_eq_getElem hcell]
  exact hm'

/-- A call can be carried out where there is room for its frame. -/
theorem Room.call {m : Memory} (h : Room m 5) (returnTo : Word) (args : UInt16)
    (hargs : args.toNat + 5 < 65536) : ∃ m', call m returnTo args = some m' := by
  obtain ⟨m₁, hm₁, h₁⟩ := h.push returnTo
  obtain ⟨m₂, hm₂, h₂⟩ := h₁.pushCell 1 (by decide) (by decide)
  obtain ⟨m₃, hm₃, h₃⟩ := h₂.pushCell 2 (by decide) (by decide)
  obtain ⟨m₄, hm₄, h₄⟩ := h₃.pushCell 3 (by decide) (by decide)
  obtain ⟨m₅, hm₅, sp, hsp, -⟩ := h₄.pushCell 4 (by decide) (by decide)
  have hread : read m₅ 0 = some sp := hsp
  have hwrite : ∀ (m : Memory) (w : Word), write m 2 w = some (m.setIfInBounds 2 w) ∧
      write m 1 w = some (m.setIfInBounds 1 w) := fun _ _ => ⟨rfl, rfl⟩
  have hkept : ∀ w : Word, read (m₅.setIfInBounds 2 w) 0 = some sp := fun w =>
    (Vector.getElem?_setIfInBounds_ne (by decide)).trans hsp
  rw [StackMachine.call, if_neg (by omega)]
  simp only [Option.bind_eq_bind, Option.bind_some, hm₁, hm₂, hm₃, hm₄, hm₅, hread, hwrite, hkept]
  exact ⟨_, rfl⟩

/-! ### Blocks -/

/-- Where an instruction leads. -/
inductive Exit where
  | next
  /-- To the block that declares a label of the program. -/
  | label (symbol : String)
  | function (name : String)
  /-- To the block that has an address in the target program. -/
  | address (w : Word)
  deriving DecidableEq, Repr

/-- Carries out an instruction of a program that does not jump, call or return. -/
def change (bs : List Block) (scope : Scope) (i : Instruction) (m : Memory) : Option Memory :=
  match i with
  | .pushConstant n => push m n.toBitVec
  | .pushSegment segment index => do pushCell m (← segmentCell m segment index)
  | .popSegment segment index => do
    let (w, m) ← pop m
    write m (← segmentCell m segment index) w
  | .pushStatic index => pushCell m (variableCell bs (scope.static index))
  | .popStatic index => popInto m (variableCell bs (scope.static index))
  | .pushPointer slot => pushCell m slot.cell
  | .popPointer slot => popInto m slot.cell
  | .pushTemp index => pushCell m (5 + index.toNat)
  | .popTemp index => popInto m (5 + index.toNat)
  | .binary op => binary m op.eval
  | .unary op => do
    let (x, m) ← pop m
    push m (op.eval x)
  | .compare op => binary m op.eval
  | .function _ n => pushZeros m n.toNat
  | _ => some m

/-- Carries out a block of a program, when the next one has the given address: the memory after it,
and where it leads. -/
def run (bs : List Block) (next : Word) (b : Block) (m : Memory) : Option (Memory × Exit) :=
  match b with
  | .bootstrap base entry _ => do
    let m ← write m 0 base.toBitVec
    return (← call m next 0, .function entry)
  | .instruction scope _ i =>
    match i with
    | .goto name => some (m, .label (scope.label name))
    | .ifGoto name =>
      (pop m).map fun r => (r.2, if r.1 = 0 then .next else .label (scope.label name))
    | .call name args => (call m next args).map fun m => (m, .function name)
    | .return => (leave m).map fun r => (r.1, .address r.2)
    | i => (change bs scope i m).map fun m => (m, .next)

/-- The place that an exit leads to from a place in a program. -/
def land (bs : List Block) (i : Nat) : Exit → Option Nat
  | .next => some (i + 1)
  | .label symbol => bs.findIdx? fun b => b.label? = some symbol
  | .function name => bs.findIdx? fun b => b.function? = some name
  | .address w => (List.range (bs.length + 1)).find? fun j => address bs j = w.toNat

/-- The memory, and the place of the block that is carried out next. -/
structure Config where
  memory : Memory
  place : Nat

/-- Carries out one block. -/
def step (bs : List Block) (c : Config) : Option Config := do
  let b ← bs[c.place]?
  let (m, exit) ← run bs (BitVec.ofNat 16 (address bs (c.place + 1))) b c.memory
  return ⟨m, ← land bs c.place exit⟩

theorem step_eq {bs : List Block} {c : Config} {b : Block} {m : Memory} {exit : Exit} {j : Nat}
    (hb : bs[c.place]? = some b)
    (hrun : run bs (BitVec.ofNat 16 (address bs (c.place + 1))) b c.memory = some (m, exit))
    (hland : land bs c.place exit = some j) : step bs c = some ⟨m, j⟩ := by
  simp only [step, hb, hrun, hland, Option.bind_eq_bind, Option.bind_some, Option.pure_def]

/-- Blocks are carried out, one after the other. -/
def Reaches (bs : List Block) : Config → Config → Prop :=
  Relation.ReflTransGen fun c d => step bs c = some d

/-- Whether the stack machine goes on forever. -/
def Endless (bs : List Block) (c : Config) : Prop :=
  ∀ d, Reaches bs c d → ∃ e, step bs d = some e

theorem place_lt_of_step {bs : List Block} {c d : Config} (h : step bs c = some d) :
    c.place < bs.length := by
  obtain ⟨b, hb, -⟩ := Option.bind_eq_some_iff.mp h
  exact (List.getElem?_eq_some_iff.mp hb).1

/-! ### Runs of so many blocks -/

/-- What the stack machine comes to in so many blocks. -/
def after (bs : List Block) : Nat → Config → Option Config
  | 0, c => some c
  | n + 1, c => (step bs c).bind (after bs n)

theorem reaches_of_after {bs : List Block} {n : Nat} {c d : Config} (h : after bs n c = some d) :
    Reaches bs c d := by
  induction n generalizing c with
  | zero =>
    cases h
    exact .refl
  | succ n ih =>
    obtain ⟨e, hstep, he⟩ := Option.bind_eq_some_iff.mp h
    exact .head hstep (ih he)

/-- What comes to a configuration that goes on forever goes on forever. -/
theorem endless_of_after {bs : List Block} {n : Nat} {c d : Config} (h : after bs n c = some d)
    (hd : Endless bs d) : Endless bs c := by
  induction n generalizing c with
  | zero =>
    cases h
    exact hd
  | succ n ih =>
    obtain ⟨e, hstep, he⟩ := Option.bind_eq_some_iff.mp h
    intro last hlast
    cases hlast using Relation.ReflTransGen.head_induction_on with
    | refl => exact ⟨e, hstep⟩
    | head hnext hrest _ =>
      obtain rfl := Option.some.inj (hstep.symm.trans hnext)
      exact ih he last hrest

/-- Two configurations that lead to each other go on forever. -/
theorem endless_of_loop {bs : List Block} {c d : Config} (hc : step bs c = some d)
    (hd : step bs d = some c) : Endless bs c := by
  intro last hlast
  have hmem : last = c ∨ last = d := by
    induction hlast with
    | refl => exact .inl rfl
    | tail _ hstep ih =>
      rcases ih with rfl | rfl
      · exact .inr (Option.some.inj (hstep.symm.trans hc))
      · exact .inl (Option.some.inj (hstep.symm.trans hd))
  rcases hmem with rfl | rfl
  · exact ⟨d, hc⟩
  · exact ⟨c, hd⟩

end StackMachine

end HackVm
