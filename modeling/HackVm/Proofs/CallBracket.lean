/-
Calls and their returns.

A run inside a function that was called executes blocks, calls other functions and
comes back from them (`Inside`). Every call that has not returned yet is an
`Activation`, the innermost first. If the run takes no operand from below the base
of its local words, and if no pop writes cells 0 to 2 or the five words that an
activation has saved, then those words stay in their place and the bases of the
innermost activation in cells 1 and 2 (`Invariant`), through any number of further
calls, recursive ones too.

* **`Invariant.step`**, **`Invariant.run`** — what one block preserves, and so a whole run;
* **`translate_returns`** — in a translated program the return of a function that was called leads
  behind the call, with the result in the place of the arguments and all else as the call found it.
-/
import HackVm.Proofs.Simulation
import HackVm.Proofs.StackEffects

namespace HackVm

open Machine StackMachine

/-- The address of the first word above the stack. -/
def Machine.State.sp (s : State) : Nat :=
  (s.peek 0).toNat

/-- A word that is written into a cell is there, and the others stay. -/
theorem peek_poke (s : State) {cell : Nat} (w : Word) (hcell : cell < memorySize)
    (k : Nat) :
    (s.poke cell w).peek k = if k = cell then w else s.peek k :=
  word_put? (put?_eq_some hcell) k

/-- Whether that many words on the stack lie above the base of the local words. -/
def Machine.State.Operands (s : State) (n : Nat) : Prop :=
  0 < n → (s.peek 1).toNat + n ≤ s.sp

/-- A call that has not returned yet: the place of its block, the number of its arguments, and the
state before it. -/
structure Activation where
  place : Nat
  args : UInt16
  caller : State

namespace Activation

/-- The cell of the first argument, and of the result. -/
def low (f : Activation) : Nat :=
  f.caller.sp - f.args.toNat

/-- The cell of the first local word, behind those that the call saves. -/
def base (f : Activation) : Nat :=
  f.caller.sp + 5

/-- Whether a cell is one of the five that hold what the call saves. -/
def IsSaved (f : Activation) (cell : Nat) : Prop :=
  f.caller.sp ≤ cell ∧ cell < f.base

end Activation

/-- The word that the machine takes for the name of a static word. -/
def staticWord (bs : List Block) (name : String) : Word :=
  BitVec.ofNat 16 (variableCell bs name)

/-- The code of a block is executed, from its beginning until the machine has left it. -/
def Executes (p : Machine.Program) (bs : List Block) (i : Nat) (s t : State) : Prop :=
  s.pc = address bs i ∧ address bs i < address bs (i + 1) ∧
    Walk p (address bs i) (address bs (i + 1)) s t

/-- One block inside of functions that were called, where operands are taken from above the base of
the local words only, and pops write neither the first three cells nor words that a call has saved
nor certain cells that are to be kept. A return from the outermost call is not part of this. -/
inductive Inside (p : Machine.Program) (bs : List Block) (kept : Nat → Prop) :
    List Activation × State → List Activation × State → Prop where
  | plain {fs : List Activation} {s t : State} {j : Nat} {scope : Scope} {labels : Labels}
      {i : Instruction} (hj : bs[j]? = some (.instruction scope labels i))
      (hcall : ∀ name args, i ≠ .call name args) (hreturn : i ≠ .return)
      (hexec : Executes p bs j s t)
      (hoperands : s.Operands i.consumes)
      (hcell : ∀ cell, i.popCell? (staticWord bs) scope s.memory = some cell →
        3 ≤ cell ∧ (∀ f ∈ fs, ¬ f.IsSaved cell) ∧ ¬ kept cell) :
      Inside p bs kept (fs, s) (fs, t)
  | call {fs : List Activation} {s t : State} {j : Nat} {scope : Scope} {labels : Labels}
      {name : String} {args : UInt16}
      (hj : bs[j]? = some (.instruction scope labels (.call name args)))
      (hexec : Executes p bs j s t)
      (hoperands : s.Operands args.toNat) :
      Inside p bs kept (fs, s) (⟨j, args, s⟩ :: fs, t)
  | return {f g : Activation} {fs : List Activation} {s t : State} {j : Nat} {scope : Scope}
      {labels : Labels} (hj : bs[j]? = some (.instruction scope labels .return))
      (hexec : Executes p bs j s t)
      (hoperands : s.Operands 1) :
      Inside p bs kept (f :: g :: fs, s) (g :: fs, t)

/-! ### The invariant -/

/-- Whether the words that a call saves are in their place. -/
def Activation.Saved (bs : List Block) (m : Memory) (f : Activation) : Prop :=
  ∀ k, k < 5 → m.word (f.caller.sp + k) =
    savedWord f.caller.memory (BitVec.ofNat 16 (address bs (f.place + 1))) k

/-- Whether an activation was called from within another. -/
structure Activation.From (g f : Activation) : Prop where
  above : g.base ≤ f.low
  base : f.caller.peek 1 = BitVec.ofNat 16 g.base
  low : f.caller.peek 2 = BitVec.ofNat 16 g.low

/-- Whether activations are within one another, and what they save is in its place. -/
structure Nested (bs : List Block) (m : Memory) (fs : List Activation) : Prop where
  place : ∀ f ∈ fs, ∃ b, bs[f.place]? = some b
  fits : ∀ f ∈ fs, f.args.toNat + 16 ≤ f.caller.sp ∧ f.base < 65536
  saved : ∀ f ∈ fs, f.Saved bs m
  chain : fs.IsChain fun f g => g.From f

/-- What holds inside of functions that were called, the outermost of them by the given call. -/
structure Invariant (bs : List Block) (kept : Nat → Prop) (origin f : Activation)
    (fs : List Activation) (m : Memory) : Prop where
  nested : Nested bs m (f :: fs)
  lcl : m.word 1 = BitVec.ofNat 16 f.base
  arg : m.word 2 = BitVec.ofNat 16 f.low
  sp : f.base ≤ m.sp
  above : ∀ g ∈ f :: fs, origin.low ≤ g.low
  kept : ∀ k, kept k → 5 ≤ k → k < origin.low → ¬ IsScratch k →
    m.word k = origin.caller.peek k

section Preserved

variable {p : Machine.Program} {value : String → Word} {bs : List Block} {kept : Nat → Prop}

theorem base_le_of_isChain {f : Activation} {fs : List Activation}
    (h : (f :: fs).IsChain fun f g => g.From f) : ∀ g ∈ f :: fs, g.base ≤ f.base := by
  induction fs generalizing f with
  | nil =>
    intro g hg
    rw [List.mem_singleton.mp hg]
  | cons e rest ih =>
    obtain ⟨hfrom, hrest⟩ := List.isChain_cons_cons.mp h
    intro g hg
    rcases List.mem_cons.mp hg with rfl | hg
    · exact le_rfl
    · have := ih hrest g hg
      have := hfrom.above
      unfold Activation.base Activation.low at *
      omega

/-- What activations have saved stays in its place if the cells do not change. -/
theorem Nested.congr {fs : List Activation} {m m' : Memory} (h : Nested bs m fs)
    (hsame : ∀ f ∈ fs, ∀ k, f.IsSaved k → m'.word k = m.word k) : Nested bs m' fs := by
  refine ⟨h.place, h.fits, ?_, h.chain⟩
  intro f hf k hk
  rw [hsame f hf _ ⟨by omega, by unfold Activation.base; omega⟩, h.saved f hf k hk]

/-- The cells that activations have saved lie between the scratch cells and the local words of the
innermost one. -/
theorem Nested.bounds {f : Activation} {fs : List Activation} {m : Memory}
    (h : Nested bs m (f :: fs)) {g : Activation} (hg : g ∈ f :: fs) {k : Nat} (hk : g.IsSaved k) :
    16 ≤ k ∧ k < f.base := by
  have hfits := (h.fits g hg).1
  have hle := base_le_of_isChain h.chain g hg
  obtain ⟨hlow, hhigh⟩ := hk
  omega

theorem toNat_base {f : Activation} {fs : List Activation} {m : Memory}
    (h : Nested bs m (f :: fs)) : (BitVec.ofNat 16 f.base).toNat = f.base :=
  toNat_ofNat_of_lt (h.fits f (by simp)).2

/-- If an instruction spares the words below its operands, then all that activations have saved is
still there. -/
theorem Invariant.spares {origin f : Activation} {fs : List Activation} {m m' : Memory}
    (h : Invariant bs kept origin f fs m) {low : Nat} {cell? : Option Nat}
    (hspares : m.Spares m' low cell?) (hlow : f.base ≤ low)
    (hcell : ∀ cell, cell? = some cell →
      3 ≤ cell ∧ (∀ g ∈ f :: fs, ¬ g.IsSaved cell) ∧ ¬ kept cell) :
    Invariant bs kept origin f fs m' := by
  have hbase : 21 ≤ f.base := by
    have := (h.nested.fits f (by simp)).1
    unfold Activation.base
    omega
  have hsame : ∀ k, k < f.base → k ≠ 0 → ¬ IsScratch k → cell? ≠ some k → m'.word k = m.word k :=
    fun k hk => hspares.same k (by omega)
  have hthree : ∀ k, k < 3 → cell? ≠ some k := by
    intro k hk heq
    have := (hcell k heq).1
    omega
  refine ⟨h.nested.congr ?_, ?_, ?_, ?_, h.above, ?_⟩
  · intro g hg k hk
    obtain ⟨hlow', hhigh⟩ := h.nested.bounds hg hk
    refine hsame k hhigh (by omega) (by unfold IsScratch; omega) ?_
    intro heq
    exact (hcell k heq).2.1 g hg hk
  · rw [hsame 1 (by omega) (by omega) (by decide) (hthree 1 (by omega)), h.lcl]
  · rw [hsame 2 (by omega) (by omega) (by decide) (hthree 2 (by omega)), h.arg]
  · exact hlow.trans hspares.sp
  · intro k hkept hfive hk hscratch
    have habove := h.above f (by simp)
    have hne : cell? ≠ some k := fun heq => (hcell k heq).2.2 hkept
    rw [hsame k (by unfold Activation.base Activation.low at *; omega) (by omega) hscratch hne,
      h.kept k hkept hfive hk hscratch]

/-! ### What a block does -/

theorem exists_place_of_target (h : Loaded p value bs) (hlinked : Linked bs) {b : Block}
    (hb : b ∈ bs) {name : String} (htarget : b.target? = some name) :
    ∃ j, (value name).toNat = address bs j := by
  obtain ⟨c, hc, hlabel⟩ := List.mem_filterMap.mp
    (hlinked.targets name (List.mem_filterMap.mpr ⟨b, hb, htarget⟩))
  obtain ⟨j, hj⟩ := List.getElem?_of_mem hc
  exact ⟨j, by rw [h.label hj hlabel, (h.toNat_address hj).1]⟩

theorem exists_place_of_callee (h : Loaded p value bs) (hlinked : Linked bs) {b : Block}
    (hb : b ∈ bs) {name : String} (hcallee : b.callee? = some name) :
    ∃ j, (value name).toNat = address bs j := by
  obtain ⟨c, hc, hfunction⟩ := List.mem_filterMap.mp
    (hlinked.callees name (List.mem_filterMap.mpr ⟨b, hb, hcallee⟩))
  obtain ⟨j, hj⟩ := List.getElem?_of_mem hc
  exact ⟨j, by rw [h.function hj hfunction, (h.toNat_address hj).1]⟩

/-- The code of a block does what the block does, if that leads to where a block is. -/
theorem Executes.effect (h : Loaded p value bs) (hlegal : ∀ b ∈ bs, b.Legal) {j : Nat} {b : Block}
    (hj : bs[j]? = some b) {s t : State} (hexec : Executes p bs j s t)
    (hout : ∀ m pc, b.effect value (address bs (j + 1)) s.memory = some (m, pc) →
      ∃ k, pc = address bs k) :
    b.effect value (address bs (j + 1)) s.memory = some (t.memory, t.pc) := by
  obtain ⟨hpc, hlt, hwalk⟩ := hexec
  rw [address_succ hj] at hlt hwalk hout ⊢
  have houtcome := b.outcome h.standard (hlegal b (List.mem_of_getElem? hj)) (h.installed j b hj)
    (by omega) s.memory s.a s.d (by
      intro m pc heq
      obtain ⟨k, rfl⟩ := hout m pc heq
      exact not_inside hj)
  rw [← hpc] at hwalk houtcome ⊢
  exact (houtcome (t.memory, t.pc)).mp ⟨t, hwalk, rfl⟩

theorem popCell?_eq (h : Loaded p value bs) {scope : Scope} {labels : Labels} {i : Instruction}
    (hb : .instruction scope labels i ∈ bs) (m : Memory) :
    i.popCell? value scope m = i.popCell? (staticWord bs) scope m := by
  cases i with
  | popStatic index =>
    have hname : scope.static index ∈ bs.filterMap Block.static? :=
      List.mem_filterMap.mpr ⟨_, hb, rfl⟩
    rw [Instruction.popCell?, h.static _ hname]
    rfl
  | _ => rfl

/-- An instruction that neither calls nor returns spares the words below its operands, and leads to
where a block is. -/
theorem effect_plain (h : Loaded p value bs) (hlinked : Linked bs) {scope : Scope} {labels : Labels}
    {i : Instruction} (hb : .instruction scope labels i ∈ bs)
    (hcall : ∀ name args, i ≠ .call name args) (hreturn : i ≠ .return) {j : Nat} {m m' : Memory}
    {pc : Nat} (heffect : (Block.instruction scope labels i).effect value (address bs j) m =
      some (m', pc)) :
    (∃ k, pc = address bs k) ∧ (i.consumes + 15 ≤ m.sp → i.popCell? value scope m ≠ some 0 →
      m.Spares m' (m.sp - i.consumes) (i.popCell? value scope m)) := by
  cases i with
  | goto name =>
    cases heffect
    exact ⟨exists_place_of_target h hlinked hb rfl,
      fun _ _ => ⟨Nat.sub_le _ _, fun _ _ _ _ _ => rfl⟩⟩
  | ifGoto name =>
    obtain ⟨⟨w, m₁⟩, hpop, heq⟩ := Option.map_eq_some_iff.mp heffect
    cases heq
    refine ⟨?_, ?_⟩
    · split
      · exact ⟨j, rfl⟩
      · exact exists_place_of_target h hlinked hb rfl
    · intro hsp _
      have hsp : 16 ≤ m.sp := hsp
      have hkeeps := Memory.Keeps.refl m (m.sp - 1)
      rw [show m.sp = m.sp - 1 + 1 by omega] at hkeeps
      exact (hkeeps.pop (by omega) hpop).spares le_rfl _
  | call name args => exact absurd rfl (hcall name args)
  | «return» => exact absurd rfl hreturn
  | label name =>
    cases heffect
    exact ⟨⟨j, rfl⟩, fun _ _ => ⟨Nat.sub_le _ _, fun _ _ _ _ _ => rfl⟩⟩
  | _ =>
    obtain ⟨m₁, hchange, heq⟩ := Option.map_eq_some_iff.mp heffect
    cases heq
    exact ⟨⟨j, rfl⟩, fun hsp hcell => change_spares hchange hsp hcell⟩

/-- A call saves what it has to above its arguments, and sets the bases of the function. -/
theorem Executes.call (h : Loaded p value bs) (hlinked : Linked bs) (hlegal : ∀ b ∈ bs, b.Legal)
    {j : Nat} {scope : Scope} {labels : Labels} {name : String} {args : UInt16}
    (hj : bs[j]? = some (.instruction scope labels (.call name args))) {s t : State}
    (hexec : Executes p bs j s t) (hsp : args.toNat + 16 ≤ s.sp) {f : Activation}
    (hf : f = ⟨j, args, s⟩) :
    f.base < 65536 ∧ t.peek 1 = BitVec.ofNat 16 f.base ∧ t.peek 2 = BitVec.ofNat 16 f.low ∧
      t.sp = f.base ∧ f.Saved bs t.memory ∧ ∀ k, 3 ≤ k → k < s.sp → t.peek k = s.peek k := by
  have heffect := hexec.effect h hlegal hj (by
    intro m pc heq
    obtain ⟨m₁, -, heq⟩ := Option.map_eq_some_iff.mp heq
    cases heq
    exact exists_place_of_callee h hlinked (List.mem_of_getElem? hj) rfl)
  obtain ⟨m, hcall, heq⟩ := Option.map_eq_some_iff.mp heffect
  obtain ⟨rfl, -⟩ := Prod.mk.inj heq
  have hbound : s.sp < 65536 := (s.peek 0).isLt
  obtain ⟨hfits, htop, hlcl, harg, hsaved, hsame⟩ := call_spec hcall (show 15 ≤ s.sp by omega)
  have hfits : s.sp + 5 ≤ 32768 := hfits
  subst hf
  refine ⟨?_, hlcl, ?_, htop, hsaved, fun k hlow hk => hsame k hlow (.inl hk)⟩
  · show s.sp + 5 < 65536
    omega
  · -- the number of words in the frame is a number for the machine
    refine harg.trans (BitVec.eq_of_toNat_eq ?_)
    rw [h.standard.number _ (by omega)]
    show (BitVec.ofNat 16 (s.sp + 5) - BitVec.ofNat 16 (args.toNat + 5)).toNat =
      (BitVec.ofNat 16 (s.sp - args.toNat)).toNat
    rw [BitVec.toNat_sub, BitVec.toNat_ofNat, BitVec.toNat_ofNat, BitVec.toNat_ofNat]
    omega

/-- A return takes the result to where the arguments were, gives the segments back to the caller,
and finds the return address. -/
theorem Invariant.leave (h : Loaded p value bs) {origin f : Activation} {fs : List Activation}
    {m m' : Memory} {target : Word} (hinv : Invariant bs kept origin f fs m)
    (hoperands : f.base + 1 ≤ m.sp) (hleave : m.leave = some (m', target)) :
    target.toNat = address bs (f.place + 1) ∧ m'.sp = f.low + 1 ∧
      m'.word f.low = m.word (m.sp - 1) ∧ (∀ k, 1 ≤ k → k < 5 → m'.word k = f.caller.peek k) ∧
      ∀ k, 5 ≤ k → ¬ IsScratch k → k ≠ f.low → m'.word k = m.word k := by
  obtain ⟨b, hplace⟩ := hinv.nested.place f (by simp)
  obtain ⟨hfits, -⟩ := hinv.nested.fits f (by simp)
  have hsaved := hinv.nested.saved f (by simp)
  have hlow : f.low = f.caller.sp - f.args.toNat := rfl
  have hbase : f.base = f.caller.sp + 5 := rfl
  obtain ⟨htarget, hsp, hresult, hcells, hsame⟩ :=
    leave_spec hleave hinv.lcl hinv.arg (by omega) (by omega) hoperands
  rw [hbase, Nat.add_sub_cancel] at htarget hcells
  refine ⟨?_, hsp, hresult, ?_, hsame⟩
  · rw [htarget, ← Nat.add_zero f.caller.sp, hsaved 0 (by omega)]
    exact (h.toNat_address hplace).2
  · intro k hk hk'
    rw [hcells k hk hk', hsaved k hk']
    match k, hk with
    | k + 1, _ => rfl

theorem Invariant.base_add_le {origin f : Activation} {fs : List Activation} {s : State}
    (hinv : Invariant bs kept origin f fs s.memory) {n : Nat}
    (hoperands : s.Operands n) : f.base + n ≤ s.sp := by
  rcases Nat.eq_zero_or_pos n with rfl | hpos
  · exact hinv.sp
  · have htop := hoperands hpos
    rwa [show s.peek 1 = _ from hinv.lcl, toNat_base hinv.nested] at htop

/-- A return leads behind the call of the innermost activation. -/
theorem Executes.return (h : Loaded p value bs) (hlegal : ∀ b ∈ bs, b.Legal) {j : Nat}
    {scope : Scope} {labels : Labels} (hj : bs[j]? = some (.instruction scope labels .return))
    {s t : State} (hexec : Executes p bs j s t) {origin f : Activation} {fs : List Activation}
    (hinv : Invariant bs kept origin f fs s.memory) (hoperands : s.Operands 1) :
    t.pc = address bs (f.place + 1) ∧ t.sp = f.low + 1 ∧ t.peek f.low = s.peek (s.sp - 1) ∧
      (∀ k, 1 ≤ k → k < 5 → t.peek k = f.caller.peek k) ∧
      ∀ k, 5 ≤ k → ¬ IsScratch k → k ≠ f.low → t.peek k = s.peek k := by
  have htop := hinv.base_add_le hoperands
  have heffect := hexec.effect h hlegal hj (by
    intro m pc heq
    obtain ⟨⟨m₁, target⟩, hleave, heq⟩ := Option.map_eq_some_iff.mp heq
    cases heq
    exact ⟨_, (hinv.leave h htop hleave).1⟩)
  obtain ⟨⟨m, target⟩, hleave, heq⟩ := Option.map_eq_some_iff.mp heffect
  obtain ⟨rfl, hpc⟩ := Prod.mk.inj heq
  obtain ⟨htarget, hrest⟩ := hinv.leave h htop hleave
  exact ⟨hpc.symm.trans htarget, hrest⟩

/-- The invariant holds when a function begins. -/
theorem Invariant.start (kept : Nat → Prop) (h : Loaded p value bs) (hlinked : Linked bs)
    (hlegal : ∀ b ∈ bs, b.Legal)
    {f : Activation} {scope : Scope} {labels : Labels} {name : String}
    (hplace : bs[f.place]? = some (.instruction scope labels (.call name f.args)))
    (hroom : f.args.toNat + 16 ≤ f.caller.sp) {t : State}
    (hexec : Executes p bs f.place f.caller t) : Invariant bs kept f f [] t.memory := by
  obtain ⟨hlt, hlcl, harg, hsp, hsaved, hsame⟩ :=
    hexec.call h hlinked hlegal hplace hroom (f := f) rfl
  have hlow : f.low = f.caller.sp - f.args.toNat := rfl
  refine ⟨⟨?_, ?_, ?_, .singleton f⟩, hlcl, harg, hsp.ge, ?_, ?_⟩
  · exact List.forall_mem_singleton.mpr ⟨_, hplace⟩
  · exact List.forall_mem_singleton.mpr ⟨hroom, hlt⟩
  · exact List.forall_mem_singleton.mpr hsaved
  · exact List.forall_mem_singleton.mpr le_rfl
  · intro k _ hfive hk _
    exact hsame k (by omega) (by omega)

/-- An instruction that neither calls nor returns preserves the invariant. -/
theorem Invariant.plain (h : Loaded p value bs) (hlinked : Linked bs) (hlegal : ∀ b ∈ bs, b.Legal)
    {origin f : Activation} {fs : List Activation} {s t : State}
    (hinv : Invariant bs kept origin f fs s.memory) {j : Nat} {scope : Scope} {labels : Labels}
    {i : Instruction} (hj : bs[j]? = some (.instruction scope labels i))
    (hcall : ∀ name args, i ≠ .call name args) (hreturn : i ≠ .return)
    (hexec : Executes p bs j s t) (hoperands : s.Operands i.consumes)
    (hcell : ∀ cell, i.popCell? (staticWord bs) scope s.memory = some cell →
      3 ≤ cell ∧ (∀ g ∈ f :: fs, ¬ g.IsSaved cell) ∧ ¬ kept cell) :
    Invariant bs kept origin f fs t.memory := by
  have hfits := (hinv.nested.fits f (by simp)).1
  have hbase : f.base = f.caller.sp + 5 := rfl
  have hmem := List.mem_of_getElem? hj
  have htop := hinv.base_add_le hoperands
  have heffect := hexec.effect h hlegal hj fun m pc heq =>
    (effect_plain h hlinked hmem hcall hreturn heq).1
  have hne : i.popCell? (staticWord bs) scope s.memory ≠ some 0 := by
    intro heq
    have := (hcell 0 heq).1
    omega
  rw [← popCell?_eq h hmem] at hcell hne
  have hspares := (effect_plain h hlinked hmem hcall hreturn heffect).2
    (show i.consumes + 15 ≤ s.sp by omega) hne
  exact hinv.spares hspares (show f.base ≤ s.sp - i.consumes by omega) hcell

/-- After a call the invariant holds for the activation that has begun. -/
theorem Invariant.call (h : Loaded p value bs) (hlinked : Linked bs) (hlegal : ∀ b ∈ bs, b.Legal)
    {origin f : Activation} {fs : List Activation} {s t : State}
    (hinv : Invariant bs kept origin f fs s.memory) {j : Nat} {scope : Scope} {labels : Labels}
    {name : String} {args : UInt16}
    (hj : bs[j]? = some (.instruction scope labels (.call name args)))
    (hexec : Executes p bs j s t) (hoperands : s.Operands args.toNat) :
    Invariant bs kept origin ⟨j, args, s⟩ (f :: fs) t.memory := by
  have hfits := (hinv.nested.fits f (by simp)).1
  have habove := hinv.above f (by simp)
  have hbase : f.base = f.caller.sp + 5 := rfl
  have hflow : f.low = f.caller.sp - f.args.toNat := rfl
  have hlow : (⟨j, args, s⟩ : Activation).low = s.sp - args.toNat := rfl
  have htop := hinv.base_add_le hoperands
  obtain ⟨hlt, hlcl, harg, hsp, hsaved, hsame⟩ := hexec.call h hlinked hlegal hj (by omega) rfl
  -- what was saved before lies below the arguments
  have hrest := hinv.nested.congr (by
    intro g hg k hk
    obtain ⟨hlow', hhigh⟩ := hinv.nested.bounds hg hk
    exact hsame k (by omega) (by omega))
  refine ⟨⟨?_, ?_, ?_, ?_⟩, hlcl, harg, hsp.ge, ?_, ?_⟩
  · exact List.forall_mem_cons.mpr ⟨⟨_, hj⟩, hrest.place⟩
  · exact List.forall_mem_cons.mpr ⟨⟨show args.toNat + 16 ≤ s.sp by omega, hlt⟩, hrest.fits⟩
  · exact List.forall_mem_cons.mpr ⟨hsaved, hrest.saved⟩
  · exact List.isChain_cons_cons.mpr ⟨⟨by omega, hinv.lcl, hinv.arg⟩, hrest.chain⟩
  · exact List.forall_mem_cons.mpr ⟨by omega, hinv.above⟩
  · intro k hkept hfive hk hscratch
    exact (hsame k (by omega) (by omega)).trans (hinv.kept k hkept hfive hk hscratch)

/-- After a return the invariant holds for the activation that made the call. -/
theorem Invariant.return (h : Loaded p value bs) (hlegal : ∀ b ∈ bs, b.Legal)
    {origin f g : Activation} {fs : List Activation} {s t : State}
    (hinv : Invariant bs kept origin f (g :: fs) s.memory) {j : Nat} {scope : Scope}
    {labels : Labels} (hj : bs[j]? = some (.instruction scope labels .return))
    (hexec : Executes p bs j s t) (hoperands : s.Operands 1) :
    Invariant bs kept origin g fs t.memory := by
  have hfits := (hinv.nested.fits f (by simp)).1
  have habove := hinv.above f (by simp)
  have hlow : f.low = f.caller.sp - f.args.toNat := rfl
  obtain ⟨-, hsp, -, hcells, hsame⟩ := hexec.return h hlegal hj hinv hoperands
  obtain ⟨hfrom, hchain⟩ := List.isChain_cons_cons.mp hinv.nested.chain
  have hgbase := hfrom.above
  have htail : Nested bs s.memory (g :: fs) :=
    ⟨fun e he => hinv.nested.place e (List.mem_cons_of_mem _ he),
      fun e he => hinv.nested.fits e (List.mem_cons_of_mem _ he),
      fun e he => hinv.nested.saved e (List.mem_cons_of_mem _ he), hchain⟩
  refine ⟨htail.congr ?_, ?_, ?_, ?_, ?_, ?_⟩
  · -- the result is stored above what the other activations have saved
    intro e he k hk
    obtain ⟨hlow', hhigh⟩ := htail.bounds he hk
    exact hsame k (by omega) (by unfold IsScratch; omega) (by omega)
  · exact (hcells 1 (by omega) (by omega)).trans hfrom.base
  · exact (hcells 2 (by omega) (by omega)).trans hfrom.low
  · show g.base ≤ t.sp
    omega
  · exact fun e he => hinv.above e (List.mem_cons_of_mem _ he)
  · intro k hkept hfive hk hscratch
    exact (hsame k hfive hscratch (by omega)).trans (hinv.kept k hkept hfive hk hscratch)

/-- One block preserves the invariant. -/
theorem Invariant.step (h : Loaded p value bs) (hlinked : Linked bs) (hlegal : ∀ b ∈ bs, b.Legal)
    {origin f : Activation} {fs gs : List Activation} {s t : State}
    (hinv : Invariant bs kept origin f fs s.memory)
    (hstep : Inside p bs kept (f :: fs, s) (gs, t)) :
    ∃ g rest, gs = g :: rest ∧ Invariant bs kept origin g rest t.memory := by
  cases hstep with
  | plain hj hcall hreturn hexec hoperands hcell =>
    exact ⟨f, fs, rfl, hinv.plain h hlinked hlegal hj hcall hreturn hexec hoperands hcell⟩
  | call hj hexec hoperands =>
    exact ⟨_, f :: fs, rfl, hinv.call h hlinked hlegal hj hexec hoperands⟩
  | «return» hj hexec hoperands =>
    exact ⟨_, _, rfl, hinv.return h hlegal hj hexec hoperands⟩

/-- A run preserves the invariant. -/
theorem Invariant.run (h : Loaded p value bs) (hlinked : Linked bs) (hlegal : ∀ b ∈ bs, b.Legal)
    {origin f : Activation} {fs gs : List Activation} {s t : State}
    (hinv : Invariant bs kept origin f fs s.memory)
    (hrun : Relation.ReflTransGen (Inside p bs kept) (f :: fs, s) (gs, t)) :
    ∃ g rest, gs = g :: rest ∧ Invariant bs kept origin g rest t.memory := by
  generalize hend : (gs, t) = last at hrun
  induction hrun generalizing gs t with
  | refl =>
    cases hend
    exact ⟨f, fs, rfl, hinv⟩
  | @tail u v _ hstep ih =>
    subst hend
    obtain ⟨g, rest, hgs, hu⟩ := ih rfl
    obtain ⟨us, u⟩ := u
    obtain rfl : us = g :: rest := hgs
    exact hu.step h hlinked hlegal hstep

/-- Where the effect of a block leads, its code leads too. -/
theorem exists_executes (h : Loaded p value bs) (hlegal : ∀ b ∈ bs, b.Legal) {j k : Nat} {b : Block}
    (hj : bs[j]? = some b) (hsize : b.size ≠ 0) {s : State} (hpc : s.pc = address bs j) {m : Memory}
    (heffect : b.effect value (address bs (j + 1)) s.memory = some (m, address bs k)) :
    ∃ t, Executes p bs j s t ∧ t.memory = m ∧ t.pc = address bs k := by
  have hsucc := address_succ hj
  rw [hsucc] at heffect
  have houtcome := b.outcome h.standard (hlegal b (List.mem_of_getElem? hj)) (h.installed j b hj)
    hsize s.memory s.a s.d (by
      intro m' pc heq
      cases heffect.symm.trans heq
      exact not_inside hj)
  obtain ⟨t, hwalk, ht⟩ := (houtcome (m, address bs k)).mpr heffect
  rw [← hpc] at hwalk
  obtain ⟨rfl, hpc'⟩ := Prod.mk.inj ht
  refine ⟨t, ⟨hpc, by omega, ?_⟩, rfl, hpc'⟩
  rw [hsucc, ← hpc]
  exact hwalk

/-- A call leads to its function where its frame has room. -/
theorem exists_executes_call (h : Loaded p value bs) (hlegal : ∀ b ∈ bs, b.Legal) {i j : Nat}
    {scope scope' : Scope} {labels labels' : Labels} {name : String} {args locals : UInt16}
    (hcall : bs[i]? = some (.instruction scope labels (.call name args)))
    (hfunction : bs[j]? = some (.instruction scope' labels' (.function name locals))) {s : State}
    (hpc : s.pc = address bs i) (hsp : 15 ≤ s.sp) (htop : s.sp + 5 ≤ memorySize) :
    ∃ t, Executes p bs i s t ∧ t.pc = address bs j := by
  have hentry : (value name).toNat = address bs j := by
    rw [h.function hfunction rfl, (h.toNat_address hfunction).1]
  obtain ⟨m, hm⟩ := exists_call s.memory (BitVec.ofNat 16 (address bs (i + 1)))
    (value (toString (args.toNat + 5))) hsp htop
  have heffect : (Block.instruction scope labels (.call name args)).effect value
      (address bs (i + 1)) s.memory = some (m, address bs j) := by
    rw [Block.effect, hm, Option.map_some, hentry]
  obtain ⟨t, hst, -, ht⟩ := exists_executes h hlegal hcall (Nat.succ_ne_zero _) hpc heffect
  exact ⟨t, hst, ht⟩

/-- A return is executed where the stack has a result and is within the memory. -/
theorem Invariant.exists_executes_return (h : Loaded p value bs) (hlegal : ∀ b ∈ bs, b.Legal)
    {origin f : Activation} {fs : List Activation} {s : State}
    (hinv : Invariant bs kept origin f fs s.memory) {j : Nat} {scope : Scope} {labels : Labels}
    (hj : bs[j]? = some (.instruction scope labels .return)) (hpc : s.pc = address bs j)
    (hsp : f.base + 1 ≤ s.sp) (htop : s.sp ≤ memorySize) : ∃ t, Executes p bs j s t := by
  have hfits := (hinv.nested.fits f (by simp)).1
  have hlow : f.low = f.caller.sp - f.args.toNat := rfl
  have hbase : f.base = f.caller.sp + 5 := rfl
  obtain ⟨⟨m, target⟩, hm⟩ :=
    exists_leave s.memory hinv.lcl hinv.arg (by omega) (by omega) hsp htop
  have htarget := (hinv.leave h hsp hm).1
  have heffect : (Block.instruction scope labels .return).effect value (address bs (j + 1))
      s.memory = some (m, address bs (f.place + 1)) := by
    rw [Block.effect, hm, Option.map_some, htarget]
  obtain ⟨t, hst, -⟩ := exists_executes h hlegal hj (Nat.succ_ne_zero _) hpc heffect
  exact ⟨t, hst⟩

end Preserved

/-! ### Translated programs -/

/-- What is executed from a call to the return of the function: the call, a run inside of the
function up to the state `u`, and the return to the state `v`. -/
structure Bracket (p : Machine.Program) (bs : List Block) (kept : Nat → Prop) (f : Activation)
    (u v : State) : Prop where
  place : ∃ scope labels name, bs[f.place]? = some (.instruction scope labels (.call name f.args))
  room : f.args.toNat + 16 ≤ f.caller.sp
  inside : ∃ t, Executes p bs f.place f.caller t ∧
    Relation.ReflTransGen (Inside p bs kept) ([f], t) ([f], u)
  leaves : ∃ j scope labels, bs[j]? = some (.instruction scope labels .return) ∧
    Executes p bs j u v
  result : u.Operands 1

/-- In a translated program the return of a function leads behind its call, whatever was called
inside of it. The result stands where the first argument was, the stack ends there, the segments are
those of the caller, and the words that are to be kept are the same below the arguments. -/
theorem translate_returns {options : Options} {units : List SourceUnit} {lines : List String}
    (hentry : isSymbol options.entry) (h : (translate options units).value = .ok lines)
    (hlinked : Linked (program options units)) (hfits : lines.countP isCodeLine ≤ 65535) :
    ∃ p, load lines = .ok p ∧
      ∀ kept f u v, Bracket p (program options units) kept f u v →
        v.pc = address (program options units) (f.place + 1) ∧
        v.sp = f.caller.sp - f.args.toNat + 1 ∧
        v.peek (f.caller.sp - f.args.toNat) = u.peek (u.sp - 1) ∧
        (∀ k, 1 ≤ k → k < 5 → v.peek k = f.caller.peek k) ∧
        ∀ k, kept k → 5 ≤ k → k < f.caller.sp - f.args.toNat → ¬ IsScratch k →
          v.peek k = f.caller.peek k := by
  obtain ⟨p, value, hload, hloaded⟩ := exists_loaded_of_translate hentry h hlinked hfits
  have hlegal := legal_of_mem_program hentry (translate_eq_ok_iff.mp h).1
  refine ⟨p, hload, ?_⟩
  rintro kept f u v ⟨⟨scope, labels, name, hplace⟩, hroom, ⟨t, hexec, hrun⟩,
    ⟨j, scope', labels', hj, hreturn⟩, hresult⟩
  have hlow : f.low = f.caller.sp - f.args.toNat := rfl
  have hinv := Invariant.start kept hloaded hlinked hlegal hplace hroom hexec
  obtain ⟨g, rest, hfs, hinv⟩ := hinv.run hloaded hlinked hlegal hrun
  cases hfs
  obtain ⟨hpc, hsp', hvalue, hcells, hrest⟩ := hreturn.return hloaded hlegal hj hinv hresult
  refine ⟨hpc, hsp', hvalue, hcells, ?_⟩
  intro k hkept hfive hk hscratch
  exact (hrest k hfive hscratch (by omega)).trans (hinv.kept k hkept hfive hk hscratch)

/-- A function that pushes a number returns, wherever there is room for its call. -/
theorem exists_bracket {p : Machine.Program} {value : String → Word} {bs : List Block}
    (h : Loaded p value bs) (hlinked : Linked bs) (hlegal : ∀ b ∈ bs, b.Legal)
    {scope scope' : Scope} {labels labels' : Labels} {name : String} {args : UInt16} {n : Int16}
    {i j : Nat} (hcall : bs[i]? = some (.instruction scope labels (.call name args)))
    (hfunction : bs[j]? = some (.instruction scope' labels' (.function name 0)))
    (hpush : bs[j + 1]? = some (.instruction scope' labels' (.pushConstant n)))
    (hreturn : bs[j + 2]? = some (.instruction scope' labels' .return)) {s : State}
    (hpc : s.pc = address bs i) (hroom : args.toNat + 16 ≤ s.sp) (htop : s.sp + 5 < memorySize)
    (kept : Nat → Prop) :
    ∃ u v, Bracket p bs kept ⟨i, args, s⟩ u v ∧ u.peek (u.sp - 1) = n.toBitVec := by
  obtain ⟨t, hst, ht⟩ :=
    exists_executes_call h hlegal hcall hfunction hpc (by omega) (by omega)
  obtain ⟨f, rfl, rfl, rfl⟩ : ∃ f : Activation, i = f.place ∧ args = f.args ∧ s = f.caller :=
    ⟨⟨i, args, s⟩, rfl, rfl, rfl⟩
  have hbase : f.base = f.caller.sp + 5 := rfl
  have hstart := Invariant.start kept h hlinked hlegal hcall hroom hst
  obtain ⟨-, -, -, hsp, -⟩ := hst.call h hlinked hlegal hcall hroom (f := f) rfl
  -- the beginning of a function without local words has no code
  have hnext : address bs (j + 1) = address bs j := address_succ hfunction
  have hne : t.sp ≠ 0 := by omega
  obtain ⟨m, hm, hsp'⟩ := exists_push t.memory n.toBitVec hne (show t.sp < memorySize by omega)
  obtain ⟨-, -, hvalue, -⟩ := push_spec hm hne
  have heffect : (Block.instruction scope' labels' (.pushConstant n)).effect value
      (address bs (j + 2)) t.memory = some (m, address bs (j + 2)) :=
    congrArg (Option.map fun m => (m, address bs (j + 2))) hm
  have hsize : (Block.instruction scope' labels' (.pushConstant n)).size ≠ 0 := by
    intro hzero
    rw [effect_of_size_eq_zero h.standard (hlegal _ (List.mem_of_getElem? hpush)) hzero] at heffect
    cases heffect
    omega
  obtain ⟨u, htu, rfl, hu⟩ :=
    exists_executes h hlegal hpush hsize (ht.trans hnext.symm) heffect
  have hinside : Inside p bs kept ([f], t) ([f], u) :=
    .plain hpush nofun nofun htu nofun nofun
  obtain ⟨g, rest, hfs, hinv⟩ := hstart.step h hlinked hlegal hinside
  cases hfs
  have husp : u.sp = f.base + 1 := hsp'.trans (congrArg (· + 1) hsp)
  obtain ⟨v, huv⟩ := hinv.exists_executes_return h hlegal hreturn hu husp.ge (by omega)
  have hresult : u.Operands 1 := by
    intro _
    rw [show u.peek 1 = _ from hinv.lcl, toNat_base hinv.nested]
    exact husp.ge
  refine ⟨u, v, ⟨⟨_, _, _, hcall⟩, hroom, ⟨t, hst, .single hinside⟩, ⟨_, _, _, hreturn, huv⟩,
    hresult⟩, ?_⟩
  rw [husp, Nat.add_sub_cancel, ← hsp]
  exact hvalue

/-- A unit with a function that returns a seven. -/
def callSeven : SourceUnit :=
  ⟨"Main", [⟨1, .call "seven" 0⟩, ⟨2, .function "seven" 0⟩, ⟨3, .pushConstant 7⟩, ⟨4, .return⟩]⟩

theorem translate_returns_callSeven :
    ∃ lines p f u v, (translate { bootstrap := false } [callSeven]).value = .ok lines ∧
      load lines = .ok p ∧
      Bracket p (program { bootstrap := false } [callSeven]) (fun _ => True) f u v ∧
      f.caller.sp = 256 ∧ v.sp = 257 ∧ v.peek 256 = 7 := by
  have hlegal : callSeven.Legal := by
    simp only [SourceUnit.Legal]
    decide
  obtain ⟨lines, hlines⟩ :
      ∃ lines, (translate { bootstrap := false } [callSeven]).value = .ok lines :=
    ⟨_, translate_eq_ok_iff.mpr ⟨by simpa using hlegal, by decide, rfl⟩⟩
  have hlinked : Linked (program { bootstrap := false } [callSeven]) :=
    ⟨⟨by decide, by decide, by decide, by decide, by decide⟩, by decide⟩
  have hfits : lines.countP isCodeLine ≤ 65535 := by
    obtain ⟨-, -, rfl⟩ := translate_eq_ok_iff.mp hlines
    decide +kernel
  obtain ⟨p, hload, hreturns⟩ := translate_returns (by decide) hlines hlinked hfits
  obtain ⟨p', value, hload', hloaded⟩ := exists_loaded_of_translate (by decide) hlines hlinked hfits
  obtain rfl : p = p' := Except.ok.inj (hload.symm.trans hload')
  obtain ⟨s, hsp, hpc⟩ : ∃ s : State, s.sp = 256 ∧ s.pc = 0 := by
    refine ⟨State.initial.poke 0 256, ?_, rfl⟩
    rw [State.sp, State.peek, State.poke, Vector.getElem?_setIfInBounds_self_of_lt (by decide)]
    rfl
  obtain ⟨u, v, hbracket, hseven⟩ := exists_bracket hloaded hlinked
    (legal_of_mem_program (by decide) (translate_eq_ok_iff.mp hlines).1)
    (i := 0) (j := 1) rfl rfl rfl rfl hpc (by rw [hsp]; decide) (by rw [hsp]; decide)
    (fun _ => True)
  obtain ⟨-, htop, hresult, -⟩ := hreturns _ _ u v hbracket
  refine ⟨lines, p, _, u, v, hlines, hload, hbracket, hsp, ?_, ?_⟩
  · rw [htop, hsp]
    rfl
  · rw [hsp, hseven] at hresult
    exact hresult

end HackVm
