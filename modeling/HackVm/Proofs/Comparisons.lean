/-
Comparisons are exact.

The code of a comparison decides by the difference of its operands, or by the sign of the left
one where the difference could overflow. What it leaves on the stack is what the operands are
to each other as integers (`CompareOp.Relates`, `holds_iff_relates`), for all pairs of words,
and it does so wherever its lines stand:

* **`compare_spec`** — what a comparison does to memory: its two operands are replaced by its
  result, and no other words than those of the stack and of the scratch cells change;
* **`compare_exact`** — the code of a comparison, between any other lines of a loaded text, runs to
  its end without a fault and does just that.
-/
import HackVm.Proofs.BlocksInText
import HackVm.Proofs.CallBracket

namespace HackVm

open Assembly Machine StackMachine

/-- Whether two integers compare as asked. -/
def CompareOp.Relates (op : CompareOp) (x y : Int) : Prop :=
  match op with
  | .eq => x = y
  | .gt => y < x
  | .lt => x < y

instance (op : CompareOp) (x y : Int) : Decidable (op.Relates x y) :=
  match op with
  | .eq => inferInstanceAs (Decidable (x = y))
  | .gt => inferInstanceAs (Decidable (y < x))
  | .lt => inferInstanceAs (Decidable (x < y))

/-- Two words compare as the integers that they are when read signed. -/
theorem holds_iff_relates (op : CompareOp) (x y : Word) :
    op.Holds x y ↔ op.Relates x.toInt y.toInt := by
  cases op with
  | eq => exact BitVec.toInt_inj.symm
  | gt => exact Iff.rfl
  | lt => exact Iff.rfl

theorem eval_eq_ite_relates (op : CompareOp) (l r : Int16) :
    op.eval l.toBitVec r.toBitVec = if op.Relates l.toInt r.toInt then -1 else 0 :=
  if_congr (holds_iff_relates op l.toBitVec r.toBitVec) rfl rfl

/-! ### Memory -/

section Memory

variable {m m' : Memory} {cell : Nat}

theorem popInto_spec (h : m.popInto cell = some m') (hsp : 2 ≤ m.sp) (hcell : cell ≠ 0) :
    m'.sp = m.sp - 1 ∧ m'.word cell = m.word (m.sp - 1) ∧
      ∀ k, k ≠ 0 → k ≠ cell → m'.word k = m.word k := by
  obtain ⟨⟨w, m₁⟩, hpop, hput⟩ := Option.bind_eq_some_iff.mp h
  obtain ⟨hsp₁, hw, hsame⟩ := pop_spec hpop hsp
  refine ⟨?_, ?_, ?_⟩
  · rw [Memory.sp, word_put?_ne hput hcell.symm]
    exact hsp₁
  · rw [word_put?_self hput, hw]
  · intro k hzero hk
    rw [word_put?_ne hput hk, hsame k hzero]

theorem exists_popInto (m : Memory) (hsp : 1 ≤ m.sp) (htop : m.sp ≤ memorySize)
    (hcell : cell < memorySize) : ∃ m', m.popInto cell = some m' := by
  obtain ⟨w, m₁, hpop⟩ := exists_pop m hsp htop
  obtain ⟨m', hput⟩ := exists_put? m₁ w hcell
  exact ⟨m', Option.bind_eq_some_iff.mpr ⟨(w, m₁), hpop, hput⟩⟩

/-- A comparison replaces the two topmost words by its result, where the stack lies above the
scratch cells. -/
theorem compare_spec {f : Word → Word → Word} (h : m.compare f = some m') (hsp : 17 ≤ m.sp) :
    m'.sp = m.sp - 1 ∧ m'.word (m.sp - 2) = f (m.word (m.sp - 2)) (m.word (m.sp - 1)) ∧
      ∀ k, k ≠ 0 → ¬ IsScratch k → k ≠ m.sp - 2 → m'.word k = m.word k := by
  simp only [Memory.compare, Option.bind_eq_bind, Option.bind_eq_some_iff] at h
  obtain ⟨m₁, hm₁, m₂, hm₂, x, hx, y, hy, hpush⟩ := h
  -- the right operand comes off the stack first and stays in its scratch cell under the left one
  obtain ⟨hsp₁, htop₁, hsame₁⟩ := popInto_spec hm₁ (by omega) (by omega)
  obtain ⟨hsp₂, htop₂, hsame₂⟩ := popInto_spec hm₂ (by omega) (by omega)
  obtain ⟨-, hsp', htop, hsame⟩ := push_spec hpush (by omega)
  have hleft : x = m.word (m.sp - 2) := by
    rw [← word_eq hx, htop₂, hsp₁, hsame₁ _ (by omega) (by omega)]
    congr 1
  have hright : y = m.word (m.sp - 1) := by
    rw [← word_eq hy, hsame₂ 13 (by omega) (by omega), htop₁]
  have hplace : m.sp - 2 = m₂.sp := by omega
  refine ⟨by omega, ?_, ?_⟩
  · rw [hplace, htop, hleft, hright, hplace]
  · intro k hzero hscratch hk
    unfold IsScratch at hscratch
    rw [hsame k hzero (by omega), hsame₂ k hzero (by omega), hsame₁ k hzero (by omega)]

/-- A comparison can be carried out where its operands lie in memory. -/
theorem exists_compare (m : Memory) (f : Word → Word → Word) (hsp : 17 ≤ m.sp)
    (htop : m.sp ≤ memorySize) : ∃ m', m.compare f = some m' := by
  obtain ⟨m₁, hm₁⟩ := exists_popInto m (by omega) htop (show 13 < memorySize by decide)
  obtain ⟨hsp₁, -, -⟩ := popInto_spec hm₁ (by omega) (by omega)
  obtain ⟨m₂, hm₂⟩ := exists_popInto m₁ (by omega) (by omega) (show 14 < memorySize by decide)
  obtain ⟨hsp₂, -, -⟩ := popInto_spec hm₂ (by omega) (by omega)
  obtain ⟨m', hpush, -⟩ := exists_push m₂ (f (m₂.word 14) (m₂.word 13)) (by omega) (by omega)
  refine ⟨m', ?_⟩
  simp only [Memory.compare, Option.bind_eq_bind, Option.bind_eq_some_iff]
  exact ⟨m₁, hm₁, m₂, hm₂, _, getElem?_word m₂ (by decide), _, getElem?_word m₂ (by decide), hpush⟩

end Memory

/-! ### The code of a comparison in a text -/

/-- The code of a comparison does not depend on where it stands. -/
theorem proper_of_mem_compare (scope : Scope) (labels : Labels) (op : CompareOp) :
    ∀ l ∈ (Block.instruction scope labels (.compare op)).code, l.Proper := by
  have hlegal : (Block.instruction ⟨"Main", none⟩ labels (.compare op)).Legal :=
    ⟨by decide, by decide, rfl⟩
  exact fun l hl => proper_of_mem_code hlegal hl

theorem isMadeUp_of_mem_compare (scope : Scope) (labels : Labels) (op : CompareOp) :
    ∀ name ∈ (Block.instruction scope labels (.compare op)).code.filterMap Line.label?,
      IsMadeUp name := by
  intro name hname
  have hmade : name ∈ (Block.instruction scope labels (.compare op)).madeUp := by
    rw [filterMap_label?_code] at hname
    exact hname
  exact isMadeUp_of_mem_madeUp hmade

/-- The lines of a comparison may stand anywhere in a text that is loaded and fits into the memory
for instructions. Begun at the first of them, the machine reaches the instruction behind them. Then
the operands on the stack have been replaced by `-1` if they compare as asked over the integers and
by `0` if not, and no word has changed but those of the stack pointer, the scratch cells and the
result. -/
theorem compare_exact {before after : List String} {annotate : Bool} {scope : Scope}
    {labels : Labels} {op : CompareOp} {p : Machine.Program}
    (hload : load (before ++ printed annotate (Instruction.code scope labels (.compare op)) ++
      after) = .ok p)
    (hfits : p.code.size ≤ 65535) {s : State} (hpc : s.pc = codeSize before) (hlow : 18 ≤ s.sp)
    (hhigh : s.sp ≤ 32768) {l r : Int16} (hleft : s.peek (s.sp - 2) = l.toBitVec)
    (hright : s.peek (s.sp - 1) = r.toBitVec) :
    ∃ t, Reaches p s t ∧
      t.pc = codeSize (before ++ printed annotate (Instruction.code scope labels (.compare op))) ∧
      t.sp = s.sp - 1 ∧
      t.peek (s.sp - 2) = (if op.Relates l.toInt r.toInt then -1 else 0) ∧
      ∀ cell, cell ∉ [0, 13, 14, s.sp - 2] → t.peek cell = s.peek cell := by
  have hproper := proper_of_mem_compare scope labels op
  have hinstalled := installed_of_load (b := .instruction scope labels (.compare op)) hload hproper
    (isMadeUp_of_mem_compare scope labels op) hfits
  obtain ⟨m, hm⟩ := exists_compare s.memory op.eval (Nat.le_of_succ_le hlow) hhigh
  obtain ⟨hsp, hresult, hsame⟩ := compare_spec hm (Nat.le_of_succ_le hlow)
  have houtcome := (compareAt_of_installed hinstalled).outcome (standard_symbolValue _ _)
    s.memory s.a s.d
  -- all ways through the five labels end where the block does, with the same memory
  rw [hm, ← hpc] at houtcome
  obtain ⟨t, hreaches, rfl, hplace⟩ := reaches_of_outcome houtcome
  refine ⟨t, hreaches, ?_, hsp, ?_, ?_⟩
  · have hsize : codeSize (printed annotate (Instruction.code scope labels (.compare op))) = 50 :=
      congrArg List.length (commands_readText_printed annotate hproper)
    rw [hplace, codeSize_append, hsize, hpc]
  · have hvalue : t.peek (s.sp - 2) = op.eval (s.peek (s.sp - 2)) (s.peek (s.sp - 1)) := hresult
    rw [hvalue, hleft, hright, eval_eq_ite_relates]
  · intro cell hcell
    simp only [List.mem_cons, List.not_mem_nil, or_false, not_or] at hcell
    obtain ⟨hzero, hscratchA, hscratchB, hne⟩ := hcell
    exact hsame cell hzero (not_or.mpr ⟨hscratchA, hscratchB⟩) hne

/-- A machine with the least number and one on its stack, and its counter behind two instructions. -/
def leastAndOne : State :=
  ((({ State.initial with pc := 2 }.poke 0 20).poke 18 Int16.minValue.toBitVec).poke 19 1)

theorem peek_leastAndOne (cell : Nat) :
    leastAndOne.peek cell = if cell = 19 then 1 else if cell = 18 then Int16.minValue.toBitVec else
      if cell = 0 then 20 else { State.initial with pc := 2 }.peek cell := by
  rw [leastAndOne, peek_poke _ _ (by decide), peek_poke _ _ (by decide), peek_poke _ _ (by decide)]

/-- The least number is less than one, though their difference is no number of 16 bits. The lines of
the comparison stand in a loop. -/
theorem compare_exact_least :
    ∃ p, load (["(LOOP)", "@7", "D=A"] ++
        printed true (Instruction.code ⟨"Main", none⟩ { compare := 3 } (.compare .lt)) ++
          ["@LOOP", "0;JMP"]) = .ok p ∧ p.code.size ≤ 65535 ∧
      ∃ s t : State, s.pc = 2 ∧ s.sp = 20 ∧ s.peek 18 = Int16.minValue.toBitVec ∧
        s.peek 19 = (1 : Int16).toBitVec ∧ Reaches p s t ∧ t.pc = 52 ∧ t.sp = 19 ∧
        t.peek 18 = -1 := by
  obtain ⟨p, hload⟩ := exists_load_of_isOk (["(LOOP)", "@7", "D=A"] ++
    printed true (Instruction.code ⟨"Main", none⟩ { compare := 3 } (.compare .lt)) ++
      ["@LOOP", "0;JMP"]) (by decide +kernel)
  have hfits : p.code.size ≤ 65535 := by
    rw [size_of_load hload]
    decide +kernel
  have hsp : leastAndOne.sp = 20 := congrArg BitVec.toNat (peek_leastAndOne 0)
  have hleft : leastAndOne.peek (leastAndOne.sp - 2) = Int16.minValue.toBitVec := by
    rw [hsp, peek_leastAndOne]
    rfl
  have hright : leastAndOne.peek (leastAndOne.sp - 1) = (1 : Int16).toBitVec := by
    rw [hsp, peek_leastAndOne]
    rfl
  obtain ⟨t, hreaches, hpc, hsp', hresult, -⟩ := compare_exact hload hfits (s := leastAndOne)
    (show 2 = _ by decide +kernel) (by omega) (by omega) hleft hright
  have hless : CompareOp.lt.Relates Int16.minValue.toInt (1 : Int16).toInt := by decide
  rw [if_pos hless] at hresult
  rw [hsp] at hleft hright hsp' hresult
  refine ⟨p, hload, hfits, leastAndOne, t, rfl, hsp, hleft, hright, hreaches, ?_, hsp', hresult⟩
  rw [hpc]
  decide +kernel

end HackVm
