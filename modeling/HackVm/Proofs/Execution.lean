/-
Runs of stretches of code.

A stretch is a range of the instructions of a program. A `Walk` is a run that
begins in it and goes on until the counter stands strictly inside the stretch no
more. `Outcome` says how the walk from a state ends: with one memory and at one
place only, or in a fault. Where no instruction jumps, this is what `execute`
computes.

* **`outcome_of_execute`** — instructions without jumps are carried out in their order, and the
  walk goes on behind them;
* **`outcome_straight`**, **`outcome_rest`** — a stretch is left at its end, or by a jump;
* **`run_of_reaches`**, **`run_of_endless`** — what is reached says how the machine's own bounded
  runs end.
-/
import HackVm.Machine.Run
import Mathlib.Logic.Relation

namespace HackVm.Machine

open Assembly

/-- The memory of the machine. -/
abbrev Memory := Vector Word memorySize

/-! ### Steps and walks -/

/-- One instruction is carried out without a fault. -/
def Steps (p : Program) (s t : State) : Prop :=
  step p s = (t, none)

/-- Some instructions are carried out without a fault. -/
def Reaches (p : Program) : State → State → Prop :=
  Relation.ReflTransGen (Steps p)

/-- A run of at least one step that ends as soon as the counter is not strictly between two
places. -/
inductive Walk (p : Program) (lo hi : Nat) : State → State → Prop where
  | last {s t : State} (hstep : Steps p s t) (hout : ¬ (lo < t.pc ∧ t.pc < hi)) : Walk p lo hi s t
  | next {s u t : State} (hstep : Steps p s u) (hin : lo < u.pc ∧ u.pc < hi)
      (hwalk : Walk p lo hi u t) : Walk p lo hi s t

variable {p : Program} {lo hi : Nat}

theorem Walk.exists_steps {s t : State} (h : Walk p lo hi s t) :
    ∃ u, Steps p s u ∧ Reaches p u t := by
  induction h with
  | last hstep _ => exact ⟨_, hstep, .refl⟩
  | next hstep _ _ ih =>
    obtain ⟨v, huv, hvt⟩ := ih
    exact ⟨_, hstep, .head huv hvt⟩

/-- What a state says besides its registers: the memory, and where the counter stands. -/
def State.result (s : State) : Memory × Nat :=
  (s.memory, s.pc)

/-- A walk from a state ends with the given memory and counter and with no others, or not at all. -/
def Outcome (p : Program) (lo hi : Nat) (s : State) (r : Option (Memory × Nat)) : Prop :=
  ∀ x, (∃ t, Walk p lo hi s t ∧ t.result = x) ↔ r = some x

theorem outcome_of_fault {s u : State} {f : Fault} (h : step p s = (u, some f)) :
    Outcome p lo hi s none := by
  intro x
  constructor
  · -- every walk begins with a step that is no fault
    rintro ⟨t, hwalk, -⟩
    cases hwalk with
    | last hstep _ => cases h.symm.trans hstep
    | next hstep _ _ => cases h.symm.trans hstep
  · intro heq
    cases heq

theorem outcome_of_last {s u : State} (h : Steps p s u) (hout : ¬ (lo < u.pc ∧ u.pc < hi)) :
    Outcome p lo hi s (some u.result) := by
  intro x
  constructor
  · rintro ⟨t, hwalk, hx⟩
    cases hwalk with
    | last hstep _ =>
      cases h.symm.trans hstep
      exact congrArg some hx
    | next hstep hin _ =>
      cases h.symm.trans hstep
      exact absurd hin hout
  · intro heq
    exact ⟨u, .last h hout, Option.some.inj heq⟩

theorem outcome_of_next {s u : State} {r : Option (Memory × Nat)} (h : Steps p s u)
    (hin : lo < u.pc ∧ u.pc < hi) (hr : Outcome p lo hi u r) : Outcome p lo hi s r := by
  intro x
  rw [← hr x]
  constructor
  · rintro ⟨t, hwalk, hx⟩
    cases hwalk with
    | last hstep hout =>
      cases h.symm.trans hstep
      exact absurd hin hout
    | next hstep _ hwalk =>
      cases h.symm.trans hstep
      exact ⟨t, hwalk, hx⟩
  · rintro ⟨t, hwalk, hx⟩
    exact ⟨t, .next h hin hwalk, hx⟩

/-! ### Code without jumps -/

/-- Whether instructions stand in a program from a place on. -/
def CodeAt (p : Program) : Nat → List Op → Prop
  | _, [] => True
  | place, op :: rest => p.code[place]? = some op ∧ CodeAt p (place + 1) rest

theorem codeAt_append {place : Nat} {first second : List Op} :
    CodeAt p place (first ++ second) ↔
      CodeAt p place first ∧ CodeAt p (place + first.length) second := by
  induction first generalizing place with
  | nil => simp [CodeAt]
  | cons op rest ih =>
    simp only [List.cons_append, CodeAt, ih, List.length_cons, and_assoc]
    rw [Nat.add_right_comm, Nat.add_assoc]

/-- Instructions stand in a program where their list continues its beginning. -/
theorem codeAt_of_eq_append (before ops after : List Op)
    (h : p.code = (before ++ ops ++ after).toArray) : CodeAt p before.length ops := by
  induction ops generalizing before with
  | nil => trivial
  | cons op rest ih =>
    constructor
    · simp [h]
    · -- the first instruction goes over to those before
      have := ih (before ++ [op]) (by simpa using h)
      simpa using this

/-- Whether an instruction is followed by the one behind it. -/
def Op.isStraight : Op → Bool
  | .address _ | .compute _ _ .never => true
  | _ => false

/-- Carries out instructions one after the other, wherever the counter stands. -/
def execute : List Op → State → Option State
  | [], s => some s
  | op :: rest, s =>
    match op.step s with
    | (t, none) => execute rest t
    | (_, some _) => none

theorem execute_append (first second : List Op) (s : State) :
    execute (first ++ second) s = (execute first s).bind (execute second) := by
  induction first generalizing s with
  | nil => rfl
  | cons op rest ih =>
    simp only [List.cons_append, execute]
    split
    · exact ih _
    · rfl

theorem pc_of_isStraight {op : Op} (hop : op.isStraight) {s t : State}
    (h : op.step s = (t, none)) : t.pc = s.pc + 1 := by
  unfold Op.isStraight at hop
  split at hop
  · cases h; rfl
  · simp only [Op.step] at h
    split at h
    · cases h
    · split at h
      · cases h
      · simp only [holds?] at h
        cases h
        rfl
  · cases hop

/-- If instructions without jumps are followed by none that leave the stretch, then a fault in
them is one of the walk. -/
theorem outcome_of_execute_eq_none {front : List Op} {s : State} (hcode : CodeAt p s.pc front)
    (hstraight : ∀ op ∈ front, op.isStraight) (hlo : lo ≤ s.pc) (hhi : s.pc + front.length ≤ hi)
    (h : execute front s = none) : Outcome p lo hi s none := by
  induction front generalizing s with
  | nil => cases h
  | cons op rest ih =>
    obtain ⟨hop, hrest⟩ := hcode
    have hstep : step p s = op.step s := by simp [step, hop]
    rw [List.length_cons] at hhi
    rw [execute] at h
    split at h
    · rename_i t ht
      have hpc := pc_of_isStraight (hstraight op (by simp)) ht
      -- the fault is still to come, so there is an instruction left
      have hne : rest ≠ [] := by rintro rfl; cases h
      have := List.length_pos_iff.mpr hne
      exact outcome_of_next (hstep.trans ht) ⟨by omega, by omega⟩
        (ih (hpc ▸ hrest) (fun o ho => hstraight o (by simp [ho])) (by omega) (by omega) h)
    · rename_i t f ht
      exact outcome_of_fault (hstep.trans ht)

/-- Instructions without jumps are carried out, and the walk goes on behind them. -/
theorem outcome_of_execute {front : List Op} {s t : State} {r : Option (Memory × Nat)}
    (hcode : CodeAt p s.pc front) (hstraight : ∀ op ∈ front, op.isStraight) (hlo : lo ≤ s.pc)
    (hhi : s.pc + front.length < hi) (h : execute front s = some t)
    (hr : t.pc = s.pc + front.length → Outcome p lo hi t r) : Outcome p lo hi s r := by
  -- the induction is on the instructions left, from the state before them
  induction front generalizing s with
  | nil => cases h; exact hr rfl
  | cons op rest ih =>
    obtain ⟨hop, hrest⟩ := hcode
    have hstep : step p s = op.step s := by simp [step, hop]
    rw [List.length_cons] at hhi hr
    rw [execute] at h
    split at h
    · rename_i u hu
      have hpc := pc_of_isStraight (hstraight op (by simp)) hu
      exact outcome_of_next (hstep.trans hu) ⟨by omega, by omega⟩
        (ih (hpc ▸ hrest) (fun o ho => hstraight o (by simp [ho])) (by omega) (by omega) h
          fun ht => hr (by omega))
    · cases h

/-- The instructions up to one that leads out of the stretch are carried out in their order. -/
theorem outcome_leaving {front : List Op} {op : Op} {s : State} {r : Option (Memory × Nat)}
    (hcode : CodeAt p s.pc (front ++ [op])) (hstraight : ∀ op ∈ front, op.isStraight)
    (hlo : lo ≤ s.pc) (hhi : s.pc + front.length < hi)
    (hr : (execute (front ++ [op]) s).map State.result = r)
    (hout : ∀ m pc, r = some (m, pc) → ¬ (lo < pc ∧ pc < hi)) : Outcome p lo hi s r := by
  obtain ⟨hfront, hop, -⟩ := codeAt_append.mp hcode
  rw [execute_append] at hr
  subst hr
  cases hexec : execute front s with
  | none => exact outcome_of_execute_eq_none hfront hstraight hlo (Nat.le_of_lt hhi) hexec
  | some t =>
    rw [hexec] at hout
    refine outcome_of_execute hfront hstraight hlo hhi hexec ?_
    intro hpc
    -- the counter is at the last instruction
    have hstep : step p t = op.step t := by simp [step, hpc, hop]
    simp only [Option.bind_some, execute] at hout ⊢
    split
    · rename_i u hu
      rw [hu] at hout
      exact outcome_of_last (hstep.trans hu) (hout _ _ rfl)
    · rename_i u f hu
      exact outcome_of_fault (hstep.trans hu)

theorem pc_of_execute {ops : List Op} (hstraight : ∀ op ∈ ops, op.isStraight) {s t : State}
    (h : execute ops s = some t) : t.pc = s.pc + ops.length := by
  induction ops generalizing s with
  | nil => cases h; rfl
  | cons op rest ih =>
    rw [execute] at h
    split at h
    · rename_i u hu
      have := ih (fun o ho => hstraight o (by simp [ho])) h
      have := pc_of_isStraight (hstraight op (by simp)) hu
      rw [List.length_cons]
      omega
    · cases h

/-- The instructions of the rest of a stretch are carried out in their order if only the last one
may jump, and if it leads out. -/
theorem outcome_rest {ops : List Op} {s : State} {r : Option (Memory × Nat)} (hne : ops ≠ [])
    (hcode : CodeAt p s.pc ops) (hstraight : ∀ op ∈ ops.dropLast, op.isStraight)
    (hlo : lo ≤ s.pc) (hhi : s.pc + ops.length = hi) (hr : (execute ops s).map State.result = r)
    (hout : ∀ m pc, r = some (m, pc) → ¬ (lo < pc ∧ pc < hi)) : Outcome p lo hi s r := by
  have hlast := List.dropLast_concat_getLast hne
  have hlength : ops.length = ops.dropLast.length + 1 := by
    have := congrArg List.length hlast
    simpa using this.symm
  exact outcome_leaving (hlast.symm ▸ hcode) hstraight hlo (by omega) (hlast.symm ▸ hr) hout

/-- Instructions without jumps at the end of a stretch are carried out in their order, and the
stretch is left at its end. -/
theorem outcome_straight {ops : List Op} {s : State} (hne : ops ≠ []) (hcode : CodeAt p s.pc ops)
    (hstraight : ∀ op ∈ ops, op.isStraight) (hlo : lo ≤ s.pc) (hhi : s.pc + ops.length = hi) :
    Outcome p lo hi s ((execute ops s).map fun t => (t.memory, hi)) := by
  have hresult : (execute ops s).map State.result =
      (execute ops s).map fun t => (t.memory, hi) := by
    cases hexec : execute ops s with
    | none => rfl
    | some t =>
      have hpc : t.pc = hi := (pc_of_execute hstraight hexec).trans hhi
      rw [Option.map_some, Option.map_some, State.result, hpc]
  refine outcome_rest hne hcode (fun op hop => hstraight op (List.dropLast_subset _ hop)) hlo hhi
    hresult ?_
  intro m pc heq
  obtain ⟨t, -, ht⟩ := Option.map_eq_some_iff.mp heq
  cases ht
  omega

/-- A jump inside a stretch. -/
theorem outcome_of_jump {comp : Comp} {jump : Jump} {s : State} (taken : Bool)
    {r : Option (Memory × Nat)} (hop : p.code[s.pc]? = some (.compute {} comp jump))
    (hcomp : source? comp = none) (htaken : holds? jump (eval comp s.d s.a) = .ok taken)
    (hin : lo < (if taken then s.a.toNat else s.pc + 1) ∧
      (if taken then s.a.toNat else s.pc + 1) < hi)
    (hr : Outcome p lo hi { s with pc := if taken then s.a.toNat else s.pc + 1 } r) :
    Outcome p lo hi s r := by
  refine outcome_of_next (u := { s with pc := if taken then s.a.toNat else s.pc + 1 }) ?_ hin hr
  simp [Steps, step, hop, Op.step, State.operand, hcomp, State.store, htaken]

/-! ### Runs of the machine -/

theorem advance_of_reaches {isOver : State → Bool} {s t : State} (h : Reaches p s t)
    (hgoing : ∀ u v, Steps p u v → isOver u = false) (hover : isOver t) :
    ∃ n, ∀ limit taken, n < limit →
      advance p isOver limit taken s = (t, .over (taken + n)) := by
  -- the induction adds steps in front, as the run of the machine takes them
  induction h using Relation.ReflTransGen.head_induction_on with
  | refl =>
    refine ⟨0, ?_⟩
    intro limit taken hlimit
    obtain ⟨limit, rfl⟩ := Nat.exists_eq_add_one_of_ne_zero (by omega : limit ≠ 0)
    rw [advance, if_pos hover, Nat.add_zero]
  | head hstep _ ih =>
    obtain ⟨n, hn⟩ := ih
    refine ⟨n + 1, ?_⟩
    intro limit taken hlimit
    obtain ⟨limit, rfl⟩ := Nat.exists_eq_add_one_of_ne_zero (by omega : limit ≠ 0)
    rw [advance, hgoing _ _ hstep, if_neg Bool.false_ne_true, hstep]
    refine (hn limit (taken + 1) (by omega)).trans ?_
    rw [Nat.add_right_comm, Nat.add_assoc]

theorem pc_lt_of_steps {s t : State} (h : Steps p s t) : s.pc < p.code.size := by
  rcases Nat.lt_or_ge s.pc p.code.size with hlt | hle
  · exact hlt
  · have hnone : p.code[s.pc]? = none := Array.getElem?_eq_none hle
    simp [Steps, step, hnone] at h

/-- If a program reaches a state in which the counter has left it, then its run ends there. -/
theorem run_of_reaches {s t : State} (h : Reaches p s t) (hout : p.code.size ≤ t.pc) :
    ∃ n, ∀ limit, n < limit → run p limit s = (t, .ok n) := by
  have hgoing : ∀ u v, Steps p u v → decide (p.code.size ≤ u.pc) = false := by
    intro u v huv
    exact decide_eq_false (Nat.not_le_of_lt (pc_lt_of_steps huv))
  obtain ⟨n, hn⟩ := advance_of_reaches h hgoing (decide_eq_true hout)
  refine ⟨n, ?_⟩
  intro limit hlimit
  simp only [run]
  rw [hn limit 0 hlimit]
  simp [Ending.steps]

/-- If there is always a further step, then a run does not end, however many steps it may take. -/
theorem run_of_endless {P : State → Prop} (hP : ∀ s, P s → ∃ t, Steps p s t ∧ P t) {s : State}
    (hs : P s) (limit : Nat) : ∃ t, run p limit s = (t, .error (.stillRunning limit)) := by
  have hadvance : ∀ limit taken s, P s →
      ∃ t, advance p (fun s => p.code.size ≤ s.pc) limit taken s = (t, .unfinished) := by
    intro limit
    induction limit with
    | zero =>
      intro taken s _
      exact ⟨s, rfl⟩
    | succ limit ih =>
      intro taken s hs
      obtain ⟨u, hstep, hu⟩ := hP s hs
      obtain ⟨t, ht⟩ := ih (taken + 1) u hu
      refine ⟨t, ?_⟩
      have hgoing := decide_eq_false (Nat.not_le_of_lt (pc_lt_of_steps hstep))
      rw [advance, hgoing, if_neg Bool.false_ne_true, hstep]
      exact ht
  obtain ⟨t, ht⟩ := hadvance limit 0 s hs
  refine ⟨t, ?_⟩
  simp only [run, ht, Ending.steps]

end HackVm.Machine
