/-
What the templates leave alone.

While the stack lies above the scratch cells, the words below what an instruction
pops stay as they are, but for cell 0, the scratch cells and the cell that a pop
writes (`change_spec`). A call saves five words above its arguments and touches no
word below them (`call_spec`), and a return puts the bases of the segments back from
where a call has saved them (`leave_spec`). The return address is read before the
result is stored: a call without arguments has it where the result goes.
-/
import HackVm.Proofs.Agreement

namespace HackVm

open Machine StackMachine

/-- The word in a cell, and zero where there is no cell. -/
def Machine.Memory.word (m : Memory) (cell : Nat) : Word :=
  m[cell]?.getD 0

/-- The address of the first word above the stack. -/
def Machine.Memory.sp (m : Memory) : Nat :=
  (m.word 0).toNat

section Memory

variable {m m' m₁ m₂ : Memory} {w : Word} {cell : Nat}

theorem word_eq (h : m[cell]? = some w) : m.word cell = w := by
  rw [Memory.word, h, Option.getD_some]

theorem word_put? (h : m.put? cell w = some m') (k : Nat) :
    m'.word k = if k = cell then w else m.word k := by
  rw [Memory.word, get?_put? h]
  split
  · rfl
  · rfl

theorem word_put?_self (h : m.put? cell w = some m') : m'.word cell = w := by
  rw [word_put? h, if_pos rfl]

theorem word_put?_ne (h : m.put? cell w = some m') {k : Nat} (hk : k ≠ cell) :
    m'.word k = m.word k := by
  rw [word_put? h, if_neg hk]

theorem lt_of_put? (h : m.put? cell w = some m') : cell < memorySize := by
  unfold Memory.put? at h
  split at h
  · assumption
  · cases h

/-! ### Words as addresses -/

theorem toNat_ofNat_of_lt {n : Nat} (h : n < 65536) : (BitVec.ofNat 16 n).toNat = n := by
  rw [BitVec.toNat_ofNat]
  omega

theorem toNat_ofNat_add_sub {n k : Nat} (h : n + k < 65536) :
    (BitVec.ofNat 16 (n + k) - BitVec.ofNat 16 k).toNat = n := by
  rw [BitVec.toNat_sub, toNat_ofNat_of_lt h, toNat_ofNat_of_lt (by omega)]
  omega

theorem word_sp (m : Memory) (n : Nat) (h : m.sp = n) : m.word 0 = BitVec.ofNat 16 n := by
  rw [← h, Memory.sp, BitVec.ofNat_toNat, BitVec.setWidth_eq]

/-- The address of the topmost word. -/
theorem toNat_top (h : 1 ≤ m.sp) : (m.word 0 - 1).toNat = m.sp - 1 := by
  have hbound : m.sp < 65536 := (m.word 0).isLt
  rw [word_sp m (m.sp - 1 + 1) (by omega)]
  exact toNat_ofNat_add_sub (by omega)

/-! ### Pushing and popping -/

theorem push_spec (h : m.push w = some m') (hsp : m.sp ≠ 0) :
    m.sp < memorySize ∧ m'.sp = m.sp + 1 ∧ m'.word m.sp = w ∧
      ∀ k, k ≠ 0 → k ≠ m.sp → m'.word k = m.word k := by
  simp only [Memory.push, Option.bind_eq_bind, Option.bind_eq_some_iff] at h
  obtain ⟨sp, hread, m₁, hput, sp', hread', hput'⟩ := h
  have hsp₀ : sp.toNat = m.sp := by rw [Memory.sp, word_eq hread]
  rw [hsp₀] at hput
  have hlt := lt_of_put? hput
  have hsame : sp' = m.word 0 := by rw [← word_eq hread', word_put?_ne hput hsp.symm]
  refine ⟨hlt, ?_, ?_, fun k hzero hk => ?_⟩
  · have hone : (1 : Word).toNat = 1 := rfl
    have hlt : (m.word 0).toNat < 32768 := hlt
    rw [Memory.sp, word_put?_self hput', hsame, Memory.sp, BitVec.toNat_add]
    omega
  · rw [word_put?_ne hput' hsp, word_put?_self hput]
  · rw [word_put?_ne hput' hzero, word_put?_ne hput hk]

theorem pop_spec (h : m.pop = some (w, m')) (hsp : 2 ≤ m.sp) :
    m'.sp = m.sp - 1 ∧ w = m.word (m.sp - 1) ∧ ∀ k, k ≠ 0 → m'.word k = m.word k := by
  simp only [Memory.pop, Option.bind_eq_bind, Option.bind_eq_some_iff, Option.pure_def,
    Option.some.injEq, Prod.mk.injEq] at h
  obtain ⟨sp, hread, m₁, hput, sp', hread', v, hv, rfl, rfl⟩ := h
  have hsp' : sp' = m.word 0 - 1 := by
    rw [← word_eq hread', word_put?_self hput, word_eq hread]
  have htop : sp'.toNat = m.sp - 1 := by rw [hsp', toNat_top (by omega)]
  refine ⟨?_, ?_, fun k hk => word_put?_ne hput hk⟩
  · rw [Memory.sp, word_eq hread', htop]
  · rw [← word_eq hv, htop, word_put?_ne hput (by omega)]

/-! ### The words below the operands -/

/-- Whether a memory has its stack up to a place, and the words of another below a second place,
but for cell 0 and the scratch cells. -/
structure Machine.Memory.Keeps (m m' : Memory) (low top : Nat) : Prop where
  sp : m'.sp = top
  same : ∀ k, k < low → k ≠ 0 → ¬ IsScratch k → m'.word k = m.word k

namespace Machine.Memory.Keeps

variable {low top : Nat}

theorem refl (m : Memory) (low : Nat) : m.Keeps m low m.sp :=
  ⟨rfl, fun _ _ _ _ => rfl⟩

theorem push (h : m.Keeps m₁ low top) (hlow : low ≤ top) (hpos : 0 < low)
    (hpush : m₁.push w = some m') : m.Keeps m' low (top + 1) := by
  have hsp := h.sp
  obtain ⟨-, htop, -, hsame⟩ := push_spec hpush (by omega)
  refine ⟨by omega, ?_⟩
  intro k hk hzero hscratch
  rw [hsame k hzero (by omega), h.same k hk hzero hscratch]

theorem pop (h : m.Keeps m₁ low (top + 1)) (hpos : 0 < top) (hpop : m₁.pop = some (w, m')) :
    m.Keeps m' low top := by
  have hsp := h.sp
  obtain ⟨htop, -, hsame⟩ := pop_spec hpop (by omega)
  refine ⟨by omega, ?_⟩
  intro k hk hzero hscratch
  rw [hsame k hzero, h.same k hk hzero hscratch]

theorem scratch (h : m.Keeps m₁ low top) (hcell : IsScratch cell)
    (hput : m₁.put? cell w = some m') : m.Keeps m' low top := by
  refine ⟨?_, ?_⟩
  · have hne : 0 ≠ cell := by
      unfold IsScratch at hcell
      omega
    rw [Memory.sp, word_put?_ne hput hne]
    exact h.sp
  · intro k hk hzero hscratch
    have hne : k ≠ cell := fun heq => hscratch (heq ▸ hcell)
    rw [word_put?_ne hput hne, h.same k hk hzero hscratch]

theorem popInto (h : m.Keeps m₁ low (top + 1)) (hpos : 0 < top) (hcell : IsScratch cell)
    (hpop : m₁.popInto cell = some m') : m.Keeps m' low top := by
  obtain ⟨⟨w, m₂⟩, hpop, hput⟩ := Option.bind_eq_some_iff.mp hpop
  exact (h.pop hpos hpop).scratch hcell hput

theorem pushCell (h : m.Keeps m₁ low top) (hlow : low ≤ top) (hpos : 0 < low)
    (hpush : m₁.pushCell cell = some m') : m.Keeps m' low (top + 1) := by
  obtain ⟨w, -, hpush⟩ := Option.bind_eq_some_iff.mp hpush
  exact h.push hlow hpos hpush

theorem pushZeros (h : m.Keeps m₁ low top) (hlow : low ≤ top) (hpos : 0 < low) {n : Nat}
    (hpush : m₁.pushZeros n = some m') : m.Keeps m' low (top + n) := by
  induction n generalizing m₁ top with
  | zero => cases hpush; exact h
  | succ n ih =>
    obtain ⟨m₂, hm₂, hrest⟩ := Option.bind_eq_some_iff.mp hpush
    have := ih (h.push hlow hpos hm₂) (by omega) hrest
    rwa [show top + 1 + n = top + (n + 1) by omega] at this

end Machine.Memory.Keeps

/-- Whether a memory has its stack up to a place at least and the words of another below it, but
for cell 0, the scratch cells and one cell more. -/
structure Machine.Memory.Spares (m m' : Memory) (low : Nat) (cell? : Option Nat) : Prop where
  sp : low ≤ m'.sp
  same : ∀ k, k < low → k ≠ 0 → ¬ IsScratch k → cell? ≠ some k → m'.word k = m.word k

namespace Machine.Memory.Keeps

variable {low top : Nat}

theorem spares (h : m.Keeps m' low top) (hlow : low ≤ top) (cell? : Option Nat) :
    m.Spares m' low cell? := by
  refine ⟨?_, ?_⟩
  · rw [h.sp]
    exact hlow
  · intro k hk hzero hscratch _
    exact h.same k hk hzero hscratch

theorem put (h : m.Keeps m₁ low top) (hlow : low ≤ top) (hcell : some cell ≠ some 0)
    (hput : m₁.put? cell w = some m') : m.Spares m' low (some cell) := by
  refine ⟨?_, ?_⟩
  · rw [Memory.sp, word_put?_ne hput fun heq => hcell (congrArg some heq.symm), ← Memory.sp, h.sp]
    exact hlow
  · intro k hk hzero hscratch hne
    rw [word_put?_ne hput fun heq => hne (congrArg some heq.symm), h.same k hk hzero hscratch]

end Machine.Memory.Keeps

/-- How many words an instruction pops, passes as arguments or returns. -/
def Instruction.consumes : Instruction → Nat
  | .popSegment .. | .popStatic _ | .popPointer _ | .popTemp _ => 1
  | .unary _ | .ifGoto _ | .return => 1
  | .binary _ | .compare _ => 2
  | .call _ args => args.toNat
  | _ => 0

/-- The cell that a pop writes. -/
def Instruction.popCell? (value : String → Word) (scope : Scope) (m : Memory) :
    Instruction → Option Nat
  | .popSegment segment index => some (index.toBitVec + m.word segment.cell).toNat
  | .popStatic index => some (value (scope.static index)).toNat
  | .popPointer slot => some slot.cell
  | .popTemp index => some (5 + index.toNat)
  | _ => none

theorem popInto_spares (h : m.popInto cell = some m') (hsp : 16 ≤ m.sp)
    (hcell : some cell ≠ some 0) : m.Spares m' (m.sp - 1) (some cell) := by
  obtain ⟨⟨w, m₁⟩, hpop, hput⟩ := Option.bind_eq_some_iff.mp h
  have hkeeps := Memory.Keeps.refl m (m.sp - 1)
  rw [show m.sp = m.sp - 1 + 1 by omega] at hkeeps
  exact (hkeeps.pop (by omega) hpop).put le_rfl hcell hput

theorem popAt_spares {base : Nat} {index : Word} (h : m.popAt base index = some m')
    (hsp : 16 ≤ m.sp) (hbase : 0 < base ∧ base < 13)
    (hcell : some (index + m.word base).toNat ≠ some 0) :
    m.Spares m' (m.sp - 1) (some (index + m.word base).toNat) := by
  simp only [Memory.popAt, Option.bind_eq_bind, Option.bind_eq_some_iff] at h
  obtain ⟨m₁, hm₁, b, hb, m₂, hm₂, w, -, target, htarget, hput⟩ := h
  have hkeeps := Memory.Keeps.refl m (m.sp - 1)
  rw [show m.sp = m.sp - 1 + 1 by omega] at hkeeps
  have h₁ := hkeeps.popInto (by omega) (.inl rfl) hm₁
  have h₂ := h₁.scratch (.inr rfl) hm₂
  -- the base is read after the pop, which has not touched it
  have hsame : b = m.word base := by
    rw [← word_eq hb]
    refine h₁.same base (by omega) (by omega) ?_
    unfold IsScratch
    omega
  have htarget : target = index + m.word base := by
    rw [← word_eq htarget, word_put?_self hm₂, hsame]
  rw [htarget] at hput
  exact h₂.put le_rfl hcell hput

/-- An instruction that does not jump, call or return leaves the words below its operands alone,
but for the cell that it pops into. -/
theorem change_spares {value : String → Word} {scope : Scope} {i : Instruction}
    (h : i.change value scope m = some m') (hsp : i.consumes + 15 ≤ m.sp)
    (hcell : i.popCell? value scope m ≠ some 0) :
    m.Spares m' (m.sp - i.consumes) (i.popCell? value scope m) := by
  have hrefl := Memory.Keeps.refl m m.sp
  have hpop : 16 ≤ m.sp → m.Keeps m (m.sp - 1) (m.sp - 1 + 1) := by
    intro hle
    rw [show m.sp - 1 + 1 = m.sp by omega]
    exact Memory.Keeps.refl m _
  have hpopTwo : 17 ≤ m.sp → m.Keeps m (m.sp - 2) (m.sp - 2 + 1 + 1) := by
    intro hle
    rw [show m.sp - 2 + 1 + 1 = m.sp by omega]
    exact Memory.Keeps.refl m _
  cases i with
  | pushConstant n => exact (hrefl.push le_rfl (by omega) h).spares (by omega) _
  | pushSegment segment index =>
    obtain ⟨base, -, hpush⟩ := Option.bind_eq_some_iff.mp h
    exact (hrefl.pushCell le_rfl (by omega) hpush).spares (by omega) _
  | popSegment segment index =>
    have hbase : 0 < segment.cell ∧ segment.cell < 13 := by cases segment <;> decide
    exact popAt_spares h hsp hbase hcell
  | pushStatic index => exact (hrefl.pushCell le_rfl (by omega) h).spares (by omega) _
  | popStatic index => exact popInto_spares h hsp hcell
  | pushPointer slot => exact (hrefl.pushCell le_rfl (by omega) h).spares (by omega) _
  | popPointer slot => exact popInto_spares h hsp hcell
  | pushTemp index => exact (hrefl.pushCell le_rfl (by omega) h).spares (by omega) _
  | popTemp index => exact popInto_spares h hsp hcell
  | binary op =>
    simp only [Instruction.change, Memory.binary, Option.bind_eq_bind,
      Option.bind_eq_some_iff] at h
    obtain ⟨m₁, hm₁, m₂, hm₂, x, -, y, -, m₃, hm₃, hpush⟩ := h
    have h₂ := ((hpopTwo hsp).popInto (by omega) (.inl rfl) hm₁).popInto (by omega) (.inr rfl) hm₂
    exact ((h₂.scratch (.inl rfl) hm₃).pushCell le_rfl (by omega) hpush).spares (by omega) _
  | unary op =>
    simp only [Instruction.change, Memory.unary, Option.bind_eq_bind,
      Option.bind_eq_some_iff] at h
    obtain ⟨m₁, hm₁, x, -, m₂, hm₂, hpush⟩ := h
    have h₁ := (hpop hsp).popInto (by omega) (.inl rfl) hm₁
    exact ((h₁.scratch (.inl rfl) hm₂).pushCell le_rfl (by omega) hpush).spares (by omega) _
  | compare op =>
    simp only [Instruction.change, Memory.compare, Option.bind_eq_bind,
      Option.bind_eq_some_iff] at h
    obtain ⟨m₁, hm₁, m₂, hm₂, x, -, y, -, hpush⟩ := h
    have h₂ := ((hpopTwo hsp).popInto (by omega) (.inl rfl) hm₁).popInto (by omega) (.inr rfl) hm₂
    exact (h₂.push le_rfl (by omega) hpush).spares (by omega) _
  | function name n => exact (hrefl.pushZeros le_rfl (by omega) h).spares (by omega) _
  | _ =>
    cases h
    exact ⟨Nat.sub_le _ _, fun _ _ _ _ _ => rfl⟩

/-! ### Calls and returns -/

theorem pushCell_spec (h : m.pushCell cell = some m') (hsp : m.sp ≠ 0) :
    m.sp < memorySize ∧ m'.sp = m.sp + 1 ∧ m'.word m.sp = m.word cell ∧
      ∀ k, k ≠ 0 → k ≠ m.sp → m'.word k = m.word k := by
  obtain ⟨w, hw, hpush⟩ := Option.bind_eq_some_iff.mp h
  rw [word_eq hw]
  exact push_spec hpush hsp

/-- The words that a call saves, the return address first. -/
def savedWord (m : Memory) (returnTo : Word) : Nat → Word
  | 0 => returnTo
  | k + 1 => m.word (k + 1)

/-- A call saves five words on the stack and sets the bases of the arguments and local words. -/
theorem call_spec {returnTo depth : Word} (h : m.call returnTo depth = some m') (hsp : 15 ≤ m.sp) :
    m.sp + 5 ≤ memorySize ∧ m'.sp = m.sp + 5 ∧ m'.word 1 = BitVec.ofNat 16 (m.sp + 5) ∧
      m'.word 2 = BitVec.ofNat 16 (m.sp + 5) - depth ∧
      (∀ k, k < 5 → m'.word (m.sp + k) = savedWord m returnTo k) ∧
      ∀ k, 3 ≤ k → (k < m.sp ∨ m.sp + 5 ≤ k) → m'.word k = m.word k := by
  simp only [Memory.call, Option.bind_eq_bind, Option.bind_eq_some_iff] at h
  obtain ⟨m₁, hm₁, m₂, hm₂, m₃, hm₃, m₄, hm₄, m₅, hm₅, sp, hread, m₆, hm₆, sp', hread', hm'⟩ := h
  obtain ⟨hlt₁, hsp₁, htop₁, hsame₁⟩ := push_spec hm₁ (by omega)
  obtain ⟨hlt₂, hsp₂, htop₂, hsame₂⟩ := pushCell_spec hm₂ (by omega)
  obtain ⟨hlt₃, hsp₃, htop₃, hsame₃⟩ := pushCell_spec hm₃ (by omega)
  obtain ⟨hlt₄, hsp₄, htop₄, hsame₄⟩ := pushCell_spec hm₄ (by omega)
  obtain ⟨hlt₅, hsp₅, htop₅, hsame₅⟩ := pushCell_spec hm₅ (by omega)
  have hrest : ∀ k, k ≠ 1 → k ≠ 2 → m'.word k = m₅.word k := by
    intro k h₁ h₂
    rw [word_put?_ne hm' h₁, word_put?_ne hm₆ h₂]
  have hword : m₅.word 0 = BitVec.ofNat 16 (m.sp + 5) := word_sp m₅ _ (by omega)
  refine ⟨by omega, ?_, ?_, ?_, ?_, ?_⟩
  · rw [Memory.sp, hrest 0 (by omega) (by omega), ← Memory.sp]
    omega
  · rw [word_put?_self hm', ← word_eq hread', word_put?_ne hm₆ (by omega), hword]
  · rw [word_put?_ne hm' (by omega), word_put?_self hm₆, ← word_eq hread, hword]
  · intro k hk
    rw [hrest _ (by omega) (by omega)]
    -- the word in each slot is stored by one push, and the later ones go above it
    obtain rfl | rfl | rfl | rfl | rfl : k = 0 ∨ k = 1 ∨ k = 2 ∨ k = 3 ∨ k = 4 := by omega
    · rw [Nat.add_zero, hsame₅ _ (by omega) (by omega), hsame₄ _ (by omega) (by omega),
        hsame₃ _ (by omega) (by omega), hsame₂ _ (by omega) (by omega), htop₁, savedWord]
    · rw [show m.sp + 1 = m₁.sp by omega, hsame₅ _ (by omega) (by omega),
        hsame₄ _ (by omega) (by omega), hsame₃ _ (by omega) (by omega), htop₂,
        hsame₁ _ (by omega) (by omega), savedWord]
    · rw [show m.sp + 2 = m₂.sp by omega, hsame₅ _ (by omega) (by omega),
        hsame₄ _ (by omega) (by omega), htop₃, hsame₂ _ (by omega) (by omega),
        hsame₁ _ (by omega) (by omega), savedWord]
    · rw [show m.sp + 3 = m₃.sp by omega, hsame₅ _ (by omega) (by omega), htop₄,
        hsame₃ _ (by omega) (by omega), hsame₂ _ (by omega) (by omega),
        hsame₁ _ (by omega) (by omega), savedWord]
    · rw [show m.sp + 4 = m₄.sp by omega, htop₅, hsame₄ _ (by omega) (by omega),
        hsame₃ _ (by omega) (by omega), hsame₂ _ (by omega) (by omega),
        hsame₁ _ (by omega) (by omega), savedWord]
  · intro k hlow hk
    rw [hrest k (by omega) (by omega), hsame₅ k (by omega) (by omega),
      hsame₄ k (by omega) (by omega), hsame₃ k (by omega) (by omega),
      hsame₂ k (by omega) (by omega), hsame₁ k (by omega) (by omega)]

theorem restore_spec (h : m.restore cell = some m') {n : Nat}
    (hcount : m.word 13 = BitVec.ofNat 16 (n + 1)) (hn : n + 1 < 65536) (hne : n ≠ 13)
    (hcell : cell ≠ 13) :
    m'.word 13 = BitVec.ofNat 16 n ∧ m'.word cell = m.word n ∧
      ∀ k, k ≠ 13 → k ≠ cell → m'.word k = m.word k := by
  simp only [Memory.restore, Option.bind_eq_bind, Option.bind_eq_some_iff] at h
  obtain ⟨frame, hframe, m₁, hm₁, w, hw, hm'⟩ := h
  have hbelow : (frame - 1).toNat = n := by
    rw [← word_eq hframe, hcount]
    exact toNat_ofNat_add_sub hn
  rw [hbelow] at hw
  refine ⟨?_, ?_, ?_⟩
  · rw [word_put?_ne hm' hcell.symm, word_put?_self hm₁, ← hbelow, BitVec.ofNat_toNat,
      BitVec.setWidth_eq]
  · rw [word_put?_self hm', ← word_eq hw, word_put?_ne hm₁ hne]
  · intro k hk hkcell
    rw [word_put?_ne hm' hkcell, word_put?_ne hm₁ hk]

theorem save_spec (h : m.save = some m') {n : Nat} (hlcl : m.word 1 = BitVec.ofNat 16 (n + 5))
    (hn : n + 5 < 65536) (hne : n ≠ 13) :
    m'.word 13 = BitVec.ofNat 16 (n + 5) ∧ m'.word 14 = m.word n ∧
      ∀ k, ¬ IsScratch k → m'.word k = m.word k := by
  simp only [Memory.save, Option.bind_eq_bind, Option.bind_eq_some_iff] at h
  obtain ⟨frame, hframe, m₁, hm₁, target, htarget, hm'⟩ := h
  have hframe : frame = BitVec.ofNat 16 (n + 5) := by rw [← word_eq hframe, hlcl]
  have hsub : (frame - 5).toNat = n := by
    rw [hframe]
    exact toNat_ofNat_add_sub hn
  rw [hsub] at htarget
  refine ⟨?_, ?_, ?_⟩
  · rw [word_put?_ne hm' (by omega), word_put?_self hm₁, hframe]
  · rw [word_put?_self hm', ← word_eq htarget, word_put?_ne hm₁ hne]
  · intro k hk
    unfold IsScratch at hk
    rw [word_put?_ne hm' (by omega), word_put?_ne hm₁ (by omega)]

theorem result_spec (h : m.result = some m') {n : Nat} (harg : m.word 2 = BitVec.ofNat 16 n)
    (hn : n + 1 < 65536) (hlow : 3 ≤ n) (hsp : 2 ≤ m.sp) :
    m'.sp = n + 1 ∧ m'.word n = m.word (m.sp - 1) ∧
      ∀ k, k ≠ 0 → k ≠ n → m'.word k = m.word k := by
  simp only [Memory.result, Option.bind_eq_bind, Option.bind_eq_some_iff] at h
  obtain ⟨⟨w, m₁⟩, hm₁, a, ha, m₂, hm₂, a', ha', hm'⟩ := h
  obtain ⟨-, hw, hsame⟩ := pop_spec hm₁ hsp
  have ha : a = BitVec.ofNat 16 n := by rw [← word_eq ha, hsame 2 (by omega), harg]
  rw [ha, toNat_ofNat_of_lt (by omega)] at hm₂
  have ha' : a' = BitVec.ofNat 16 n := by
    rw [← word_eq ha', word_put?_ne hm₂ (by omega), hsame 2 (by omega), harg]
  refine ⟨?_, ?_, ?_⟩
  · have hone : (1 : Word).toNat = 1 := rfl
    rw [Memory.sp, word_put?_self hm', ha', BitVec.toNat_add, toNat_ofNat_of_lt (by omega)]
    omega
  · rw [word_put?_ne hm' (by omega), word_put?_self hm₂, hw]
  · intro k hzero hk
    rw [word_put?_ne hm' hzero, word_put?_ne hm₂ hk, hsame k hzero]

/-- A return takes the result to the place of the first argument and puts the saved words back. -/
theorem leave_spec {target : Word} {base arg : Nat} (h : m.leave = some (m', target))
    (hlcl : m.word 1 = BitVec.ofNat 16 base) (harg : m.word 2 = BitVec.ofNat 16 arg)
    (hlow : 15 ≤ arg) (hframe : arg + 5 ≤ base) (htop : base + 1 ≤ m.sp) :
    target = m.word (base - 5) ∧ m'.sp = arg + 1 ∧ m'.word arg = m.word (m.sp - 1) ∧
      (∀ k, 1 ≤ k → k < 5 → m'.word k = m.word (base - 5 + k)) ∧
      ∀ k, 5 ≤ k → ¬ IsScratch k → k ≠ arg → m'.word k = m.word k := by
  obtain ⟨b, rfl⟩ : ∃ b, base = b + 5 := ⟨base - 5, by omega⟩
  have hbound : m.sp < 65536 := (m.word 0).isLt
  simp only [Memory.leave, Option.bind_eq_bind, Option.bind_eq_some_iff, Option.pure_def,
    Option.some.injEq, Prod.mk.injEq] at h
  obtain ⟨m₁, hm₁, m₂, hm₂, m₃, hm₃, m₄, hm₄, m₅, hm₅, m₆, hm₆, t, ht, rfl, rfl⟩ := h
  have hscratch : ∀ k, 15 ≤ k → ¬ IsScratch k := by
    unfold IsScratch
    omega
  -- the return address is read before the result can take its place
  obtain ⟨hcount₁, htarget₁, hsame₁⟩ := save_spec hm₁ hlcl (by omega) (by omega)
  have hsp₁ : m₁.sp = m.sp := by rw [Memory.sp, hsame₁ 0 (by decide), ← Memory.sp]
  obtain ⟨hsp₂, hresult, hsame₂⟩ :=
    result_spec hm₂ (by rw [hsame₁ 2 (by decide), harg]) (by omega) (by omega) (by omega)
  rw [hsp₁, hsame₁ _ (hscratch _ (by omega))] at hresult
  have hcount₂ : m₂.word 13 = BitVec.ofNat 16 (b + 4 + 1) := by
    rw [hsame₂ 13 (by omega) (by omega), hcount₁]
  have hsaved₂ : ∀ k, 1 ≤ k → k < 5 → m₂.word (b + k) = m.word (b + k) := by
    intro k hk hk'
    rw [hsame₂ _ (by omega) (by omega), hsame₁ _ (hscratch _ (by omega))]
  -- the saved words are put back one after the other
  obtain ⟨hcount₃, hthat, hsame₃⟩ := restore_spec hm₃ hcount₂ (by omega) (by omega) (by omega)
  obtain ⟨hcount₄, hthis, hsame₄⟩ := restore_spec hm₄ hcount₃ (by omega) (by omega) (by omega)
  obtain ⟨hcount₅, hargument, hsame₅⟩ := restore_spec hm₅ hcount₄ (by omega) (by omega) (by omega)
  obtain ⟨-, hlocal, hsame₆⟩ := restore_spec hm₆ hcount₅ (by omega) (by omega) (by omega)
  have hrest : ∀ k, ¬ (1 ≤ k ∧ k < 5) → k ≠ 13 → m₆.word k = m₂.word k := by
    intro k hk hcount
    rw [hsame₆ k hcount (by omega), hsame₅ k hcount (by omega), hsame₄ k hcount (by omega),
      hsame₃ k hcount (by omega)]
  refine ⟨?_, ?_, ?_, ?_, ?_⟩
  · rw [← word_eq ht, hrest 14 (by omega) (by omega), hsame₂ 14 (by omega) (by omega), htarget₁,
      Nat.add_sub_cancel]
  · rw [Memory.sp, hrest 0 (by omega) (by omega), ← Memory.sp, hsp₂]
  · rw [hrest arg (by omega) (by omega), hresult]
  · intro k hk hk'
    rw [Nat.add_sub_cancel, ← hsaved₂ k hk hk']
    obtain rfl | rfl | rfl | rfl : k = 1 ∨ k = 2 ∨ k = 3 ∨ k = 4 := by omega
    · rw [hlocal, hsame₅ _ (by omega) (by omega), hsame₄ _ (by omega) (by omega),
        hsame₃ _ (by omega) (by omega)]
    · rw [hsame₆ 2 (by omega) (by omega), hargument, hsame₄ _ (by omega) (by omega),
        hsame₃ _ (by omega) (by omega)]
    · rw [hsame₆ 3 (by omega) (by omega), hsame₅ 3 (by omega) (by omega), hthis,
        hsame₃ _ (by omega) (by omega)]
    · rw [hsame₆ 4 (by omega) (by omega), hsame₅ 4 (by omega) (by omega),
        hsame₄ 4 (by omega) (by omega), hthat]
  · intro k hlow hk hne
    rw [hrest k (by omega) (fun heq => hk (.inl heq)), hsame₂ k (by omega) hne, hsame₁ k hk]

/-! ### Where there is room -/

theorem getElem?_word (m : Memory) (h : cell < memorySize) : m[cell]? = some (m.word cell) := by
  rw [Memory.word, Vector.getElem?_eq_getElem h, Option.getD_some]

theorem exists_push (m : Memory) (w : Word) (hsp : m.sp ≠ 0) (h : m.sp < memorySize) :
    ∃ m', m.push w = some m' ∧ m'.sp = m.sp + 1 := by
  have hpush : m.push w = some ((m.setIfInBounds m.sp w).setIfInBounds 0
      (Memory.word (m.setIfInBounds m.sp w) 0 + 1)) := by
    simp only [Memory.push, Option.bind_eq_bind, getElem?_word _ (show 0 < memorySize by decide),
      Option.bind_some, ← Memory.sp.eq_def, put?_eq_some h,
      put?_eq_some (show 0 < memorySize by decide)]
  exact ⟨_, hpush, (push_spec hpush hsp).2.1⟩

theorem exists_pushCell (m : Memory) (hsp : m.sp ≠ 0) (h : m.sp < memorySize)
    (hcell : cell < memorySize) : ∃ m', m.pushCell cell = some m' ∧ m'.sp = m.sp + 1 := by
  obtain ⟨m', hm', htop⟩ := exists_push m (m.word cell) hsp h
  refine ⟨m', ?_, htop⟩
  simp only [Memory.pushCell, getElem?_word m hcell, Option.bind_eq_bind, hm', Option.bind_some]

/-- A call can be executed where its frame has room. -/
theorem exists_call (m : Memory) (returnTo depth : Word) (hsp : 15 ≤ m.sp)
    (h : m.sp + 5 ≤ memorySize) : ∃ m', m.call returnTo depth = some m' := by
  have hcell : ∀ k, k < 5 → k < memorySize := by
    unfold memorySize
    omega
  obtain ⟨m₁, hm₁, h₁⟩ := exists_push m returnTo (by omega) (by omega)
  obtain ⟨m₂, hm₂, h₂⟩ := exists_pushCell m₁ (by omega) (by omega) (hcell 1 (by omega))
  obtain ⟨m₃, hm₃, h₃⟩ := exists_pushCell m₂ (by omega) (by omega) (hcell 2 (by omega))
  obtain ⟨m₄, hm₄, h₄⟩ := exists_pushCell m₃ (by omega) (by omega) (hcell 3 (by omega))
  obtain ⟨m₅, hm₅, -⟩ := exists_pushCell m₄ (by omega) (by omega) (hcell 4 (by omega))
  simp only [Memory.call, Option.bind_eq_bind, hm₁, hm₂, hm₃, hm₄, hm₅, Option.bind_some,
    getElem?_word _ (hcell 0 (by omega)), put?_eq_some (hcell 1 (by omega)),
    put?_eq_some (hcell 2 (by omega))]
  exact ⟨_, rfl⟩

theorem exists_put? (m : Memory) (w : Word) (h : cell < memorySize) :
    ∃ m', m.put? cell w = some m' :=
  ⟨_, put?_eq_some h⟩

theorem exists_save (m : Memory) {n : Nat} (hlcl : m.word 1 = BitVec.ofNat 16 (n + 5))
    (hn : n < memorySize) : ∃ m', m.save = some m' := by
  have hsub : (BitVec.ofNat 16 (n + 5) - 5).toNat = n := by
    unfold memorySize at hn
    exact toNat_ofNat_add_sub (by omega)
  simp only [Memory.save, Option.bind_eq_bind, getElem?_word _ (show 1 < memorySize by decide),
    hlcl, Option.bind_some, put?_eq_some (show 13 < memorySize by decide), hsub, getElem?_word _ hn,
    put?_eq_some (show 14 < memorySize by decide)]
  exact ⟨_, rfl⟩

theorem exists_restore (m : Memory) {n : Nat} (hcount : m.word 13 = BitVec.ofNat 16 (n + 1))
    (hn : n < memorySize) (hne : n ≠ 13) (hcell : cell < 13) :
    ∃ m', m.restore cell = some m' ∧ m'.word 13 = BitVec.ofNat 16 n := by
  unfold memorySize at hn
  have hsub : (BitVec.ofNat 16 (n + 1) - 1).toNat = n := toNat_ofNat_add_sub (by omega)
  obtain ⟨m', hm'⟩ : ∃ m', m.restore cell = some m' := by
    simp only [Memory.restore, Option.bind_eq_bind,
      getElem?_word _ (show 13 < memorySize by decide), hcount, Option.bind_some,
      put?_eq_some (show 13 < memorySize by decide), hsub, getElem?_word _ hn,
      put?_eq_some (show cell < memorySize from hcell.trans (by decide))]
    exact ⟨_, rfl⟩
  exact ⟨m', hm', (restore_spec hm' hcount (by omega) hne hcell.ne).1⟩

theorem exists_pop (m : Memory) (hsp : 1 ≤ m.sp) (htop : m.sp ≤ memorySize) :
    ∃ w m', m.pop = some (w, m') := by
  obtain ⟨m', hm'⟩ := exists_put? m (m.word 0 - 1) (show 0 < memorySize by decide)
  refine ⟨m'.word (m.sp - 1), m', ?_⟩
  simp only [Memory.pop, Option.bind_eq_bind, getElem?_word _ (show 0 < memorySize by decide), hm',
    Option.bind_some, word_put?_self hm', toNat_top hsp,
    getElem?_word _ (show m.sp - 1 < memorySize by omega), Option.pure_def]

theorem exists_result (m : Memory) {n : Nat} (harg : m.word 2 = BitVec.ofNat 16 n)
    (hn : n < memorySize) (hlow : 3 ≤ n) (hsp : 2 ≤ m.sp) (htop : m.sp ≤ memorySize) :
    ∃ m', m.result = some m' := by
  obtain ⟨w, m₁, hm₁⟩ := exists_pop m (by omega) htop
  obtain ⟨-, -, hsame⟩ := pop_spec hm₁ hsp
  obtain ⟨m₂, hm₂⟩ := exists_put? m₁ w hn
  have harg₁ : m₁.word 2 = BitVec.ofNat 16 n := by rw [hsame 2 (by omega), harg]
  have hread : (BitVec.ofNat 16 n).toNat = n := by
    unfold memorySize at hn
    exact toNat_ofNat_of_lt (by omega)
  simp only [Memory.result, Option.bind_eq_bind, hm₁, Option.bind_some,
    getElem?_word _ (show 2 < memorySize by decide), harg₁, hread, hm₂,
    put?_eq_some (show 0 < memorySize by decide)]
  exact ⟨_, rfl⟩

/-- A return can be executed where a call has set the bases. -/
theorem exists_leave (m : Memory) {base arg : Nat} (hlcl : m.word 1 = BitVec.ofNat 16 base)
    (harg : m.word 2 = BitVec.ofNat 16 arg) (hlow : 15 ≤ arg) (hframe : arg + 5 ≤ base)
    (hsp : base + 1 ≤ m.sp) (htop : m.sp ≤ memorySize) : ∃ r, m.leave = some r := by
  obtain ⟨b, rfl⟩ : ∃ b, base = b + 5 := ⟨base - 5, by omega⟩
  have hsize : memorySize = 32768 := rfl
  obtain ⟨m₁, hm₁⟩ := exists_save m hlcl (by omega)
  obtain ⟨hcount₁, -, hsame₁⟩ := save_spec hm₁ hlcl (by omega) (by omega)
  have hsp₁ : m₁.sp = m.sp := by rw [Memory.sp, hsame₁ 0 (by decide), ← Memory.sp]
  have harg₁ : m₁.word 2 = BitVec.ofNat 16 arg := by rw [hsame₁ 2 (by decide), harg]
  obtain ⟨m₂, hm₂⟩ := exists_result m₁ harg₁ (by omega) (by omega) (by omega) (by omega)
  obtain ⟨-, -, hsame₂⟩ := result_spec hm₂ harg₁ (by omega) (by omega) (by omega)
  have hcount₂ : m₂.word 13 = BitVec.ofNat 16 (b + 4 + 1) := by
    rw [hsame₂ 13 (by omega) (by omega), hcount₁]
  obtain ⟨m₃, hm₃, hcount₃⟩ :=
    exists_restore m₂ hcount₂ (by omega) (by omega) (show 4 < 13 by decide)
  obtain ⟨m₄, hm₄, hcount₄⟩ :=
    exists_restore m₃ hcount₃ (by omega) (by omega) (show 3 < 13 by decide)
  obtain ⟨m₅, hm₅, hcount₅⟩ :=
    exists_restore m₄ hcount₄ (by omega) (by omega) (show 2 < 13 by decide)
  obtain ⟨m₆, hm₆, -⟩ :=
    exists_restore m₅ hcount₅ (by omega) (by omega) (show 1 < 13 by decide)
  simp only [Memory.leave, Option.bind_eq_bind, hm₁, hm₂, hm₃, hm₄, hm₅, hm₆, Option.bind_some,
    getElem?_word _ (show 14 < memorySize by decide)]
  exact ⟨_, rfl⟩

end Memory

end HackVm
