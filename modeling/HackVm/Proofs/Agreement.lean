/-
Memories that agree outside the scratch cells.

The stack machine does not know the scratch cells, so its memory says nothing of
them. Where a memory of the target machine agrees with it on all other cells
(`Agree`), every operation of the stack machine is followed by the operation of the
templates, and the memories agree again. The cells are dead between blocks: each
operation writes them before it reads them.

* **`Agree.run`** — what the stack machine does in a block, the code of the block does, and both
  lead to the same address.
-/
import HackVm.Proofs.Linking

namespace HackVm

open Assembly Machine Template

namespace StackMachine

/-! ### Memories that agree outside the scratch cells -/

/-- Whether memories agree outside the scratch cells. -/
def Agree (m μ : Memory) : Prop :=
  ∀ cell, ¬ IsScratch cell → m[cell]? = μ[cell]?

variable {m m' μ : Memory} {cell : Nat} {w : Word}

theorem put?_eq_some (h : cell < memorySize) :
    μ.put? cell w = some (μ.setIfInBounds cell w) := by
  rw [Memory.put?, if_pos h]

theorem get?_put? {ν : Memory} (h : μ.put? cell w = some ν) (other : Nat) :
    ν[other]? = if other = cell then some w else μ[other]? := by
  unfold Memory.put? at h
  split at h
  · rename_i hcell
    cases h
    rw [Vector.getElem?_setIfInBounds]
    split
    · rename_i heq
      subst heq
      simp
    · rename_i hne
      rw [if_neg (Ne.symm hne)]
  · cases h

theorem Agree.read (h : Agree m μ) (hread : read m cell = some w) : μ[cell]? = some w := by
  unfold StackMachine.read at hread
  split at hread
  · cases hread
  · rename_i hcell
    rw [← h cell hcell, hread]

theorem Agree.write (h : Agree m μ) (hwrite : write m cell w = some m') :
    ∃ μ', μ.put? cell w = some μ' ∧ Agree m' μ' ∧ ∀ k, IsScratch k → μ'[k]? = μ[k]? := by
  unfold StackMachine.write at hwrite
  split at hwrite
  · cases hwrite
  · rename_i hcell
    rw [not_or, Nat.not_le] at hcell
    cases hwrite
    have hput := put?_eq_some (μ := μ) (w := w) hcell.2
    refine ⟨_, hput, fun k hk => ?_, fun k hk => ?_⟩
    · rw [get?_put? hput, get?_put? (put?_eq_some (μ := m) (w := w) hcell.2), h k hk]
    · rw [get?_put? hput, if_neg]
      rintro rfl
      exact hcell.1 hk

/-- Words in scratch cells do not matter. -/
theorem Agree.scratch (h : Agree m μ) (hcell : IsScratch cell) (w : Word) :
    ∃ μ', μ.put? cell w = some μ' ∧ Agree m μ' ∧ μ'[cell]? = some w ∧
      ∀ k, k ≠ cell → μ'[k]? = μ[k]? := by
  have hlt : cell < memorySize := by
    rcases hcell with rfl | rfl <;> decide
  have hput := put?_eq_some (μ := μ) (w := w) hlt
  refine ⟨_, hput, fun k hk => ?_, ?_, fun k hk => ?_⟩
  · rw [get?_put? hput, if_neg, h k hk]
    rintro rfl
    exact hk hcell
  · rw [get?_put? hput, if_pos rfl]
  · rw [get?_put? hput, if_neg hk]

theorem Agree.push (h : Agree m μ) (hpush : push m w = some m') :
    ∃ μ', μ.push w = some μ' ∧ Agree m' μ' ∧ ∀ k, IsScratch k → μ'[k]? = μ[k]? := by
  simp only [StackMachine.push, Option.bind_eq_bind, Option.bind_eq_some_iff] at hpush
  obtain ⟨sp, hsp, m₁, hm₁, sp', hsp', hm'⟩ := hpush
  obtain ⟨μ₁, hμ₁, h₁, hscratch₁⟩ := h.write hm₁
  obtain ⟨μ', hμ', h', hscratch'⟩ := h₁.write hm'
  refine ⟨μ', ?_, h', fun k hk => (hscratch' k hk).trans (hscratch₁ k hk)⟩
  simp only [Memory.push, Option.bind_eq_bind, h.read hsp, hμ₁, h₁.read hsp', hμ', Option.bind_some]

theorem Agree.pushCell (h : Agree m μ) (hpush : pushCell m cell = some m') :
    ∃ μ', μ.pushCell cell = some μ' ∧ Agree m' μ' := by
  simp only [StackMachine.pushCell, Option.bind_eq_bind, Option.bind_eq_some_iff] at hpush
  obtain ⟨w, hw, hm'⟩ := hpush
  obtain ⟨μ', hμ', h', -⟩ := h.push hm'
  exact ⟨μ', by simp [Memory.pushCell, h.read hw, hμ'], h'⟩

theorem Agree.pop (h : Agree m μ) (hpop : pop m = some (w, m')) :
    ∃ μ', μ.pop = some (w, μ') ∧ Agree m' μ' ∧ ∀ k, IsScratch k → μ'[k]? = μ[k]? := by
  simp only [StackMachine.pop, Option.bind_eq_bind, Option.bind_eq_some_iff] at hpop
  obtain ⟨sp, hsp, m₁, hm₁, v, hv, heq⟩ := hpop
  cases heq
  obtain ⟨μ', hμ', h', hscratch⟩ := h.write hm₁
  refine ⟨μ', ?_, h', hscratch⟩
  have hsp' : μ'[0]? = some (sp - 1) := by rw [get?_put? hμ', if_pos rfl]
  simp only [Memory.pop, Option.bind_eq_bind, h.read hsp, hμ', hsp', h'.read hv, Option.bind_some,
    Option.pure_def]

/-- A pop into a scratch cell leaves the word there, and the other scratch cell alone. -/
theorem Agree.popInto (h : Agree m μ) (hcell : IsScratch cell)
    (hpop : StackMachine.pop m = some (w, m')) :
    ∃ μ', μ.popInto cell = some μ' ∧ Agree m' μ' ∧ μ'[cell]? = some w ∧
      ∀ k, IsScratch k → k ≠ cell → μ'[k]? = μ[k]? := by
  obtain ⟨μ₁, hμ₁, h₁, hscratch₁⟩ := h.pop hpop
  obtain ⟨μ', hμ', h', hw, hothers⟩ := h₁.scratch hcell w
  refine ⟨μ', by simp [Memory.popInto, hμ₁, hμ'], h', hw, fun k hk hne => ?_⟩
  rw [hothers k hne, hscratch₁ k hk]

theorem Agree.pushZeros (h : Agree m μ) {n : Nat} (hpush : pushZeros m n = some m') :
    ∃ μ', μ.pushZeros n = some μ' ∧ Agree m' μ' := by
  induction n generalizing m μ with
  | zero => cases hpush; exact ⟨μ, rfl, h⟩
  | succ n ih =>
    simp only [StackMachine.pushZeros, Option.bind_eq_bind, Option.bind_eq_some_iff] at hpush
    obtain ⟨m₁, hm₁, hm'⟩ := hpush
    obtain ⟨μ₁, hμ₁, h₁, -⟩ := h.push hm₁
    obtain ⟨μ', hμ', h'⟩ := ih h₁ hm'
    refine ⟨μ', ?_, h'⟩
    simp only [Memory.pushZeros, Option.bind_eq_bind, hμ₁, hμ', Option.bind_some]

theorem Agree.segmentCell (h : Agree m μ) {segment : Segment} {index : UInt16}
    (hcell : segmentCell m segment index = some cell) :
    ∃ base : Word, μ[segment.cell]? = some base ∧ (index.toBitVec + base).toNat = cell := by
  simp only [StackMachine.segmentCell, Option.bind_eq_bind, Option.bind_eq_some_iff,
    Option.pure_def, Option.some.injEq] at hcell
  obtain ⟨base, hbase, heq⟩ := hcell
  exact ⟨base, h.read hbase, by rw [BitVec.add_comm, heq]⟩

theorem Agree.pushAt (h : Agree m μ) {segment : Segment} {index : UInt16}
    (hcell : StackMachine.segmentCell m segment index = some cell)
    (hpush : StackMachine.pushCell m cell = some m') :
    ∃ μ', μ.pushAt segment.cell index.toBitVec = some μ' ∧ Agree m' μ' := by
  obtain ⟨base, hbase, rfl⟩ := h.segmentCell hcell
  obtain ⟨μ', hμ', h'⟩ := h.pushCell hpush
  refine ⟨μ', ?_, h'⟩
  simp only [Memory.pushAt, Option.bind_eq_bind, hbase, hμ', Option.bind_some]

theorem Agree.popAt (h : Agree m μ) {m₁ : Memory} (hpop : StackMachine.pop m = some (w, m₁))
    {segment : Segment} {index : UInt16}
    (hcell : StackMachine.segmentCell m₁ segment index = some cell)
    (hwrite : StackMachine.write m₁ cell w = some m') :
    ∃ μ', μ.popAt segment.cell index.toBitVec = some μ' ∧ Agree m' μ' := by
  obtain ⟨μ₁, hμ₁, h₁, hw, -⟩ := h.popInto (.inl rfl) hpop
  obtain ⟨base, hbase, hsum⟩ := h₁.segmentCell hcell
  obtain ⟨μ₂, hμ₂, h₂, htarget, hothers⟩ := h₁.scratch (.inr rfl) (index.toBitVec + base)
  obtain ⟨μ', hμ', h', -⟩ := h₂.write hwrite
  have hw₂ : μ₂[13]? = some w := (hothers 13 (by decide)).trans hw
  refine ⟨μ', ?_, h'⟩
  simp only [Memory.popAt, Option.bind_eq_bind, hμ₁, hbase, hμ₂, hw₂, htarget, hsum, hμ',
    Option.bind_some]

/-- A pop into a cell that is none of the scratch cells. -/
theorem Agree.popTo (h : Agree m μ) (hpop : StackMachine.popInto m cell = some m') :
    ∃ μ', μ.popInto cell = some μ' ∧ Agree m' μ' := by
  obtain ⟨⟨w, m₁⟩, hw, hwrite⟩ := Option.bind_eq_some_iff.mp hpop
  obtain ⟨μ₁, hμ₁, h₁, -⟩ := h.pop hw
  obtain ⟨μ', hμ', h', -⟩ := h₁.write hwrite
  refine ⟨μ', ?_, h'⟩
  simp only [Memory.popInto, Option.bind_eq_bind, hμ₁, hμ', Option.bind_some]

/-- Two pops into the scratch cells, which then hold the operands. -/
theorem Agree.popTwo (h : Agree m μ) {x y : Word} {m₁ : Memory}
    (hy : StackMachine.pop m = some (y, m₁)) (hx : StackMachine.pop m₁ = some (x, m')) :
    ∃ μ₁ μ', μ.popInto 13 = some μ₁ ∧ μ₁.popInto 14 = some μ' ∧ Agree m' μ' ∧
      μ'[14]? = some x ∧ μ'[13]? = some y := by
  obtain ⟨μ₁, hμ₁, h₁, hleft, -⟩ := h.popInto (.inl rfl) hy
  obtain ⟨μ', hμ', h', hright, hothers⟩ := h₁.popInto (.inr rfl) hx
  exact ⟨μ₁, μ', hμ₁, hμ', h', hright, (hothers 13 (.inl rfl) (by decide)).trans hleft⟩

theorem Agree.binary (h : Agree m μ) {op : Word → Word → Word}
    (hbinary : StackMachine.binary m op = some m') : ∃ μ', μ.binary op = some μ' ∧ Agree m' μ' := by
  obtain ⟨⟨y, m₁⟩, hy, hrest⟩ := Option.bind_eq_some_iff.mp hbinary
  obtain ⟨⟨x, m₂⟩, hx, hpush⟩ := Option.bind_eq_some_iff.mp hrest
  obtain ⟨μ₁, μ₂, hμ₁, hμ₂, h₂, hxcell, hycell⟩ := h.popTwo hy hx
  obtain ⟨μ₃, hμ₃, h₃, hresult, -⟩ := h₂.scratch (.inl rfl) (op x y)
  obtain ⟨μ', hμ', h', -⟩ := h₃.push hpush
  refine ⟨μ', ?_, h'⟩
  simp only [Memory.binary, Memory.pushCell, Option.bind_eq_bind, hμ₁, hμ₂, hxcell, hycell, hμ₃,
    hresult, hμ', Option.bind_some]

theorem Agree.unary (h : Agree m μ) {op : Word → Word} {x : Word} {m₁ : Memory}
    (hx : StackMachine.pop m = some (x, m₁)) (hpush : StackMachine.push m₁ (op x) = some m') :
    ∃ μ', μ.unary op = some μ' ∧ Agree m' μ' := by
  obtain ⟨μ₁, hμ₁, h₁, hxcell, -⟩ := h.popInto (.inl rfl) hx
  obtain ⟨μ₂, hμ₂, h₂, hresult, -⟩ := h₁.scratch (.inl rfl) (op x)
  obtain ⟨μ', hμ', h', -⟩ := h₂.push hpush
  refine ⟨μ', ?_, h'⟩
  simp only [Memory.unary, Memory.pushCell, Option.bind_eq_bind, hμ₁, hxcell, hμ₂, hresult, hμ',
    Option.bind_some]

theorem Agree.compare (h : Agree m μ) {op : Word → Word → Word}
    (hcompare : StackMachine.binary m op = some m') :
    ∃ μ', μ.compare op = some μ' ∧ Agree m' μ' := by
  obtain ⟨⟨y, m₁⟩, hy, hrest⟩ := Option.bind_eq_some_iff.mp hcompare
  obtain ⟨⟨x, m₂⟩, hx, hpush⟩ := Option.bind_eq_some_iff.mp hrest
  obtain ⟨μ₁, μ₂, hμ₁, hμ₂, h₂, hxcell, hycell⟩ := h.popTwo hy hx
  obtain ⟨μ', hμ', h', -⟩ := h₂.push hpush
  refine ⟨μ', ?_, h'⟩
  simp only [Memory.compare, Option.bind_eq_bind, hμ₁, hμ₂, hxcell, hycell, hμ', Option.bind_some]

/-! ### Calls and returns -/

theorem Agree.call (h : Agree m μ) {returnTo : Word} {args : UInt16}
    (hcall : StackMachine.call m returnTo args = some m') :
    args.toNat + 5 < 65536 ∧ ∃ μ', μ.call returnTo (args.toBitVec + 5) = some μ' ∧ Agree m' μ' := by
  unfold StackMachine.call at hcall
  split at hcall
  · cases hcall
  · rename_i hargs
    simp only [Option.bind_eq_bind, Option.bind_eq_some_iff] at hcall
    obtain ⟨m₁, hm₁, m₂, hm₂, m₃, hm₃, m₄, hm₄, m₅, hm₅, sp, hsp, m₆, hm₆, sp', hsp', hm'⟩ := hcall
    obtain ⟨μ₁, hμ₁, h₁, -⟩ := h.push hm₁
    obtain ⟨μ₂, hμ₂, h₂⟩ := h₁.pushCell hm₂
    obtain ⟨μ₃, hμ₃, h₃⟩ := h₂.pushCell hm₃
    obtain ⟨μ₄, hμ₄, h₄⟩ := h₃.pushCell hm₄
    obtain ⟨μ₅, hμ₅, h₅⟩ := h₄.pushCell hm₅
    obtain ⟨μ₆, hμ₆, h₆, -⟩ := h₅.write hm₆
    obtain ⟨μ', hμ', h', -⟩ := h₆.write hm'
    refine ⟨by omega, μ', ?_, h'⟩
    simp only [Memory.call, Option.bind_eq_bind, hμ₁, hμ₂, hμ₃, hμ₄, hμ₅, h₅.read hsp, hμ₆,
      h₆.read hsp', hμ', Option.bind_some]

/-- One of the saved words is restored; the scratch cell counts down the cells that hold them. -/
theorem Agree.restore (h : Agree m μ) {frame below saved : Word} (hframe : μ[13]? = some frame)
    (hbelow : frame - 1 = below) (hread : StackMachine.read m below.toNat = some saved)
    (hwrite : StackMachine.write m cell saved = some m') :
    ∃ μ', μ.restore cell = some μ' ∧ Agree m' μ' ∧ μ'[13]? = some below ∧ μ'[14]? = μ[14]? := by
  subst hbelow
  obtain ⟨μ₁, hμ₁, h₁, hcount, hothers⟩ := h.scratch (.inl rfl) (frame - 1)
  obtain ⟨μ', hμ', h', hscratch⟩ := h₁.write hwrite
  refine ⟨μ', ?_, h', (hscratch 13 (.inl rfl)).trans hcount,
    (hscratch 14 (.inr rfl)).trans (hothers 14 (by decide))⟩
  simp only [Memory.restore, Option.bind_eq_bind, hframe, hμ₁, h₁.read hread, hμ',
    Option.bind_some]

theorem Agree.leave (h : Agree m μ) {returnTo : Word}
    (hleave : StackMachine.leave m = some (m', returnTo)) :
    ∃ μ', μ.leave = some (μ', returnTo) ∧ Agree m' μ' := by
  simp only [StackMachine.leave, Option.bind_eq_bind, Option.bind_eq_some_iff] at hleave
  obtain ⟨frame, hframe, target, htarget, ⟨w, m₁⟩, hm₁, arg, harg, m₂, hm₂, arg', harg', m₃, hm₃,
    that, hthat, m₄, hm₄, this, hthis, m₅, hm₅, argument, hargument, m₆, hm₆, «local», hlocal, m₇,
    hm₇, heq⟩ := hleave
  cases heq
  obtain ⟨μ₁, hμ₁, h₁, hcount₁, hothers₁⟩ := h.scratch (.inl rfl) frame
  obtain ⟨μ₂, hμ₂, h₂, htarget₂, hothers₂⟩ := h₁.scratch (.inr rfl) returnTo
  obtain ⟨μ₃, hμ₃, h₃, hscratch₃⟩ := h₂.pop hm₁
  obtain ⟨μ₄, hμ₄, h₄, hscratch₄⟩ := h₃.write hm₂
  obtain ⟨μ₅, hμ₅, h₅, hscratch₅⟩ := h₄.write hm₃
  have hcount₅ : μ₅[13]? = some frame := by
    rw [hscratch₅ 13 (.inl rfl), hscratch₄ 13 (.inl rfl), hscratch₃ 13 (.inl rfl),
      hothers₂ 13 (by decide), hcount₁]
  have htarget₅ : μ₅[14]? = some returnTo := by
    rw [hscratch₅ 14 (.inr rfl), hscratch₄ 14 (.inr rfl), hscratch₃ 14 (.inr rfl), htarget₂]
  have hbelow : ∀ k : Word, frame - k - 1 = frame - (k + 1) := fun k => BitVec.sub_sub ..
  obtain ⟨μ₆, hμ₆, h₆, hcount₆, htarget₆⟩ := h₅.restore hcount₅ rfl hthat hm₄
  obtain ⟨μ₇, hμ₇, h₇, hcount₇, htarget₇⟩ := h₆.restore hcount₆ (hbelow 1) hthis hm₅
  obtain ⟨μ₈, hμ₈, h₈, hcount₈, htarget₈⟩ := h₇.restore hcount₇ (hbelow 2) hargument hm₆
  obtain ⟨μ₉, hμ₉, h₉, -, htarget₉⟩ := h₈.restore hcount₈ (hbelow 3) hlocal hm₇
  have htarget₉ : μ₉[14]? = some returnTo := by
    rw [htarget₉, htarget₈, htarget₇, htarget₆, htarget₅]
  refine ⟨μ₉, ?_, h₉⟩
  simp only [Memory.leave, Memory.save, Memory.result, Option.bind_eq_bind, h.read hframe, hμ₁,
    h₁.read htarget, hμ₂, hμ₃, h₃.read harg, hμ₄, h₄.read harg', hμ₅, hμ₆, hμ₇, hμ₈, hμ₉, htarget₉,
    Option.bind_some, Option.pure_def]

/-! ### Blocks -/

/-- The address that an exit leads to, if the next block has the given one. -/
def Exit.target (value : String → Word) (next : Nat) : Exit → Nat
  | .next => next
  | .label symbol => (value symbol).toNat
  | .function name => (value name).toNat
  | .address w => w.toNat

section Run

variable {p : Machine.Program} {value : String → Word} {bs : List Block}

/-- A static word is in its cell, if there is such a cell. -/
theorem toNat_static (h : Loaded p value bs) (name : String)
    (hname : name ∈ bs.filterMap Block.static?) (hcell : variableCell bs name < memorySize) :
    (value name).toNat = variableCell bs name := by
  rw [h.static name hname, BitVec.toNat_ofNat]
  unfold memorySize at hcell
  omega

theorem lt_of_read {m : Memory} {cell : Nat} {w : Word} (h : read m cell = some w) :
    cell < memorySize := by
  unfold StackMachine.read at h
  split at h
  · cases h
  · exact (Vector.getElem?_eq_some_iff.mp h).1

theorem lt_of_write {m m' : Memory} {cell : Nat} {w : Word} (h : write m cell w = some m') :
    cell < memorySize := by
  unfold StackMachine.write at h
  split at h
  · cases h
  · omega

/-- What the stack machine does in an instruction, the template does to a memory that agrees. -/
theorem Agree.change (h : Loaded p value bs) {scope : Scope} {labels : Labels} {i : Instruction}
    (hb : .instruction scope labels i ∈ bs) {m m' μ : Memory} (hagree : Agree m μ)
    (hchange : StackMachine.change bs scope i m = some m') :
    ∃ μ', i.change value scope μ = some μ' ∧ Agree m' μ' := by
  cases i with
  | pushConstant n =>
    obtain ⟨μ', hμ', h', -⟩ := hagree.push hchange
    exact ⟨μ', hμ', h'⟩
  | pushSegment segment index =>
    obtain ⟨cell, hcell, hpush⟩ := Option.bind_eq_some_iff.mp hchange
    exact hagree.pushAt hcell hpush
  | popSegment segment index =>
    obtain ⟨⟨w, m₁⟩, hpop, hrest⟩ := Option.bind_eq_some_iff.mp hchange
    obtain ⟨cell, hcell, hwrite⟩ := Option.bind_eq_some_iff.mp hrest
    exact hagree.popAt hpop hcell hwrite
  | pushStatic index =>
    obtain ⟨w, hread, -⟩ := Option.bind_eq_some_iff.mp hchange
    have hcell := toNat_static h (scope.static index)
      (List.mem_filterMap.mpr ⟨_, hb, rfl⟩) (lt_of_read hread)
    rw [Instruction.change, hcell]
    exact hagree.pushCell hchange
  | popStatic index =>
    obtain ⟨⟨w, m₁⟩, -, hwrite⟩ := Option.bind_eq_some_iff.mp hchange
    have hcell := toNat_static h (scope.static index)
      (List.mem_filterMap.mpr ⟨_, hb, rfl⟩) (lt_of_write hwrite)
    rw [Instruction.change, hcell]
    exact hagree.popTo hchange
  | pushPointer slot => exact hagree.pushCell hchange
  | popPointer slot => exact hagree.popTo hchange
  | pushTemp index => exact hagree.pushCell hchange
  | popTemp index => exact hagree.popTo hchange
  | binary op => exact hagree.binary hchange
  | unary op =>
    obtain ⟨⟨x, m₁⟩, hpop, hpush⟩ := Option.bind_eq_some_iff.mp hchange
    exact hagree.unary hpop hpush
  | compare op => exact hagree.compare hchange
  | function name n => exact hagree.pushZeros hchange
  | _ => cases hchange; exact ⟨μ, rfl, hagree⟩

/-- What the stack machine does in a block, the code of the block does to a memory that agrees. -/
theorem Agree.run (h : Loaded p value bs) {b : Block} (hb : b ∈ bs) {next : Nat} {m m' μ : Memory}
    {exit : Exit} (hagree : Agree m μ)
    (hrun : run bs (BitVec.ofNat 16 next) b m = some (m', exit)) :
    ∃ μ', b.effect value next μ = some (μ', exit.target value next) ∧ Agree m' μ' := by
  cases b with
  | bootstrap base entry id =>
    simp only [StackMachine.run, Option.bind_eq_bind, Option.bind_eq_some_iff, Option.pure_def,
      Option.some.injEq, Prod.mk.injEq] at hrun
    obtain ⟨m₁, hwrite, m₂, hcall, rfl, rfl⟩ := hrun
    obtain ⟨μ₁, hμ₁, h₁, -⟩ := hagree.write hwrite
    obtain ⟨-, μ', hμ', h'⟩ := h₁.call hcall
    have hfive : (0 : UInt16).toBitVec + 5 = 5 := by decide
    rw [hfive] at hμ'
    refine ⟨μ', ?_, h'⟩
    simp only [Block.effect, Option.bind_eq_bind, hμ₁, hμ', Option.bind_some, Option.pure_def,
      Exit.target]
  | instruction scope labels i =>
    cases i with
    | label name =>
      cases hrun
      exact ⟨μ, rfl, hagree⟩
    | goto name =>
      cases hrun
      exact ⟨μ, rfl, hagree⟩
    | ifGoto name =>
      obtain ⟨⟨w, m₁⟩, hpop, heq⟩ := Option.map_eq_some_iff.mp hrun
      cases heq
      obtain ⟨μ', hμ', h', -⟩ := hagree.pop hpop
      refine ⟨μ', ?_, h'⟩
      simp only [Block.effect, hμ', Option.map_some]
      by_cases hw : w = 0
      · rw [if_pos hw, if_pos hw, Exit.target]
      · rw [if_neg hw, if_neg hw, Exit.target]
    | call name args =>
      obtain ⟨m₁, hcall, heq⟩ := Option.map_eq_some_iff.mp hrun
      cases heq
      obtain ⟨hargs, μ', hμ', h'⟩ := hagree.call hcall
      have hdepth : value (toString (args.toNat + 5)) = args.toBitVec + 5 := by
        rw [h.standard.number _ hargs]
        exact BitVec.eq_of_toNat_eq (by simp [BitVec.toNat_ofNat])
      refine ⟨μ', ?_, h'⟩
      simp only [Block.effect, hdepth, hμ', Option.map_some, Exit.target]
    | «return» =>
      obtain ⟨⟨m₁, returnTo⟩, hleave, heq⟩ := Option.map_eq_some_iff.mp hrun
      cases heq
      obtain ⟨μ', hμ', h'⟩ := hagree.leave hleave
      refine ⟨μ', ?_, h'⟩
      simp only [Block.effect, hμ', Option.map_some, Exit.target]
    | _ =>
      obtain ⟨m₁, hchange, heq⟩ := Option.map_eq_some_iff.mp hrun
      cases heq
      obtain ⟨μ', hμ', h'⟩ := hagree.change h hb hchange
      exact ⟨μ', congrArg (Option.map fun m => (m, next)) hμ', h'⟩

end Run

end StackMachine

end HackVm
