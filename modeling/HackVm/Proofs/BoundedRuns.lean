/-
Bounded runs, one after the other.

Whether a run is over is asked before each step and not after the last one. So a run that is over
after some steps needs a limit above their number, and with any other limit it is cut short
(`advance_over`). A run that was cut short is taken up where it stands, and the two are one run with
both limits together (`advance_add`).

* **`bounded_runs_compose`** — so it is for the runs off the end of a program and for those to a
  label.
-/
import HackVm.Machine.Run

namespace HackVm.Machine

variable {p : Program} {isOver : State → Bool}

/-- From a state a run is over, or ends in a fault, or goes on after one step, whatever its limit
above zero is. -/
theorem advance_cases (p : Program) (isOver : State → Bool) (s : State) :
    (∀ limit taken, advance p isOver (limit + 1) taken s = (s, .over taken)) ∨
      (∃ t f, ∀ limit taken, advance p isOver (limit + 1) taken s = (t, .fault f)) ∨
      ∃ t, ∀ limit taken,
        advance p isOver (limit + 1) taken s = advance p isOver limit (taken + 1) t := by
  by_cases hover : isOver s
  · exact .inl fun limit taken => by rw [advance, if_pos hover]
  · cases hstep : step p s with
    | mk t fault =>
      cases fault with
      | none => exact .inr (.inr ⟨t, fun limit taken => by rw [advance, if_neg hover, hstep]⟩)
      | some f => exact .inr (.inl ⟨t, f, fun limit taken => by rw [advance, if_neg hover, hstep]⟩)

/-- A run that was cut short and one from where it stands are one run. -/
theorem advance_add {m taken : Nat} {s t : State}
    (h : advance p isOver m taken s = (t, .unfinished)) (n : Nat) :
    advance p isOver (m + n) taken s = advance p isOver n (taken + m) t := by
  induction m generalizing taken s with
  | zero =>
    cases h
    rw [Nat.zero_add, Nat.add_zero]
  | succ m ih =>
    rw [Nat.add_right_comm]
    rcases advance_cases p isOver s with hover | ⟨u, f, hfault⟩ | ⟨u, hnext⟩
    · cases (hover m taken).symm.trans h
    · cases (hfault m taken).symm.trans h
    · rw [hnext] at h ⊢
      rw [ih h, Nat.add_assoc, Nat.add_comm 1 m]

/-- The number of steps of a run that is over is the greatest limit that cuts it short. -/
theorem advance_over {m taken steps : Nat} {s t : State}
    (h : advance p isOver m taken s = (t, .over steps)) :
    ∃ k, steps = taken + k ∧ ∀ limit,
      (k < limit → advance p isOver limit taken s = (t, .over steps)) ∧
        (limit ≤ k → (advance p isOver limit taken s).2 = .unfinished) := by
  induction m generalizing taken s with
  | zero => cases h
  | succ m ih =>
    rcases advance_cases p isOver s with hover | ⟨u, f, hfault⟩ | ⟨u, hnext⟩
    · cases (hover m taken).symm.trans h
      refine ⟨0, rfl, ?_⟩
      rintro (_ | limit)
      · exact ⟨fun hlt => absurd hlt (Nat.lt_irrefl 0), fun _ => rfl⟩
      · exact ⟨fun _ => hover limit _, fun hle => absurd hle (Nat.not_succ_le_zero limit)⟩
    · cases (hfault m taken).symm.trans h
    · rw [hnext] at h
      obtain ⟨k, hsteps, hlimits⟩ := ih h
      refine ⟨k + 1, by omega, ?_⟩
      rintro (_ | limit)
      · exact ⟨fun hlt => absurd hlt (Nat.not_lt_zero _), fun _ => rfl⟩
      · rw [hnext]
        exact ⟨fun hlt => (hlimits limit).1 (by omega), fun hle => (hlimits limit).2 (by omega)⟩

/-! ### Endings -/

/-- An ending with more steps before it. -/
def Ending.later (before : Nat) : Ending → Ending
  | .over steps => .over (before + steps)
  | ending => ending

/-- A run counts on from the steps that were taken before it. -/
theorem advance_taken (limit taken : Nat) (s : State) :
    advance p isOver limit taken s =
      ((advance p isOver limit 0 s).1, (advance p isOver limit 0 s).2.later taken) := by
  induction limit generalizing taken s with
  | zero => rfl
  | succ limit ih =>
    rcases advance_cases p isOver s with hover | ⟨t, f, hfault⟩ | ⟨t, hnext⟩
    · rw [hover, hover, Ending.later, Nat.add_zero]
    · rw [hfault, hfault, Ending.later]
      intro steps heq
      cases heq
    · rw [hnext, hnext, ih (taken + 1), ih (0 + 1)]
      cases (advance p isOver limit 0 t).2 <;> simp [Ending.later, Nat.add_assoc]

theorem later_eq_over_iff {e : Ending} {before k : Nat} :
    e.later before = .over (before + k) ↔ e = .over k := by
  cases e <;> simp [Ending.later]

theorem later_eq_fault_iff {e : Ending} {before : Nat} {f : Fault} :
    e.later before = .fault f ↔ e = .fault f := by
  cases e <;> simp [Ending.later]

theorem later_eq_unfinished_iff {e : Ending} {before : Nat} :
    e.later before = .unfinished ↔ e = .unfinished := by
  cases e <;> simp [Ending.later]

section

variable {e : Ending} {late : RunError}

theorem steps_eq_ok_iff {k : Nat} : e.steps late = .ok k ↔ e = .over k := by
  cases e <;> simp [Ending.steps]

variable (hlate : ∀ f, late ≠ .fault f)

include hlate

theorem steps_eq_fault_iff {f : Fault} : e.steps late = .error (.fault f) ↔ e = .fault f := by
  cases e <;> simp [Ending.steps, hlate]

theorem steps_eq_late_iff : e.steps late = .error late ↔ e = .unfinished := by
  cases e <;> simp [Ending.steps, (hlate _).symm]

end

/-! ### Runs -/

/-- What is expected of runs with a limit that end in the error `late limit` if the limit cuts them
short. -/
structure IsBoundedRun (run : Nat → State → State × Except RunError Nat) (late : Nat → RunError) :
    Prop where
  /-- A run that was cut short and one from where it stands are one run with both limits. -/
  resume : ∀ {m : Nat} {s t : State}, run m s = (t, .error (late m)) → ∀ n,
    (run n t).1 = (run (m + n) s).1 ∧
      (∀ k, (run n t).2 = .ok k ↔ (run (m + n) s).2 = .ok (m + k)) ∧
      (∀ f, (run n t).2 = .error (.fault f) ↔ (run (m + n) s).2 = .error (.fault f)) ∧
      ((run n t).2 = .error (late n) ↔ (run (m + n) s).2 = .error (late (m + n)))
  /-- A run that is over after `k` steps is the same with every limit above `k`, and is cut short
  by every other. -/
  enough : ∀ {m k : Nat} {s t : State}, run m s = (t, .ok k) → ∀ limit,
    (k < limit → run limit s = (t, .ok k)) ∧
      (limit ≤ k → (run limit s).2 = .error (late limit))

theorem isBoundedRun_of_advance {run : Nat → State → State × Except RunError Nat}
    {late : Nat → RunError} (hlate : ∀ limit f, late limit ≠ .fault f)
    (hrun : ∀ limit s, run limit s =
      ((advance p isOver limit 0 s).1, (advance p isOver limit 0 s).2.steps (late limit))) :
    IsBoundedRun run late where
  resume := by
    intro m s t h n
    rw [hrun, Prod.mk.injEq, steps_eq_late_iff (hlate m)] at h
    have hadd := advance_add (Prod.ext h.1 h.2) n
    rw [advance_taken n, Nat.zero_add] at hadd
    rw [hrun n t, hrun (m + n) s, hadd]
    refine ⟨rfl, ?_, ?_, ?_⟩
    · intro k
      rw [steps_eq_ok_iff, steps_eq_ok_iff, later_eq_over_iff]
    · intro f
      rw [steps_eq_fault_iff (hlate n), steps_eq_fault_iff (hlate (m + n)), later_eq_fault_iff]
    · rw [steps_eq_late_iff (hlate n), steps_eq_late_iff (hlate (m + n)), later_eq_unfinished_iff]
  enough := by
    intro m k s t h limit
    rw [hrun, Prod.mk.injEq, steps_eq_ok_iff] at h
    obtain ⟨k, rfl, hlimits⟩ := advance_over (Prod.ext h.1 h.2)
    rw [Nat.zero_add, hrun]
    refine ⟨?_, ?_⟩
    · intro hlt
      rw [(hlimits limit).1 hlt, Nat.zero_add]
      rfl
    · intro hle
      exact (steps_eq_late_iff (hlate limit)).mpr ((hlimits limit).2 hle)

/-- Bounded runs of a program compose, from every state: those off its end, and those to one label,
which the program need not have. -/
theorem bounded_runs_compose (p : Program) :
    IsBoundedRun (run p) .stillRunning ∧
      ∀ label, IsBoundedRun (runTo p label) (.notReached label) := by
  refine ⟨isBoundedRun_of_advance (by simp) fun limit s => rfl, ?_⟩
  intro label
  cases htarget : p.labels[label]? with
  | some target =>
    have hrun : ∀ limit s, runTo p label limit s =
        ((advance p (fun s => s.pc = target.toNat) limit 0 s).1,
          (advance p (fun s => s.pc = target.toNat) limit 0 s).2.steps
            (.notReached label limit)) := by
      intro limit s
      simp only [runTo, htarget]
    exact isBoundedRun_of_advance (by simp) hrun
  | none =>
    -- such a run neither is over nor is cut short
    have hnone : ∀ limit s, runTo p label limit s = (s, .error (.noLabel label)) := by
      intro limit s
      simp only [runTo, htarget]
    constructor
    · intro m s t h
      cases (hnone m s).symm.trans h
    · intro m k s t h
      cases (hnone m s).symm.trans h

/-- A program of two instructions and a loop behind them. -/
def twoAndLoop : Program :=
  { code := #[.address 2, .compute { d := true } (.y .a) .never, .compute {} .zero .always]
    labels := ({} : Std.TreeMap String Word).insert "END" 2 }

/-- The run to the loop is cut short after one step, and taken up where it stands. The run off the
end of the program goes on in the loop. -/
theorem bounded_runs_compose_loop :
    ∃ s t, runTo twoAndLoop "END" 1 .initial = (s, .error (.notReached "END" 1)) ∧
      (runTo twoAndLoop "END" 2 s).2 = .ok 1 ∧ runTo twoAndLoop "END" 3 .initial = (t, .ok 2) ∧
      (∀ limit, 2 < limit → runTo twoAndLoop "END" limit .initial = (t, .ok 2)) ∧
      ∃ u, run twoAndLoop 5 .initial = (u, .error (.stillRunning 5)) ∧
        (run twoAndLoop 4 u).2 = .error (.stillRunning 4) ∧
        (run twoAndLoop 9 .initial).2 = .error (.stillRunning 9) := by
  obtain ⟨hrun, hrunTo⟩ := bounded_runs_compose twoAndLoop
  have hcut : runTo twoAndLoop "END" 1 .initial =
      ((runTo twoAndLoop "END" 1 .initial).1, .error (.notReached "END" 1)) :=
    Prod.ext rfl (by rfl)
  have hrest : (runTo twoAndLoop "END" 2 (runTo twoAndLoop "END" 1 .initial).1).2 = .ok 1 := by
    rfl
  have hboth : (runTo twoAndLoop "END" 3 .initial).2 = .ok 2 :=
    (((hrunTo "END").resume hcut 2).2.1 1).mp hrest
  have hloop : run twoAndLoop 5 .initial =
      ((run twoAndLoop 5 .initial).1, .error (.stillRunning 5)) :=
    Prod.ext rfl (by rfl)
  have hmore : (run twoAndLoop 4 (run twoAndLoop 5 .initial).1).2 = .error (.stillRunning 4) := by
    rfl
  exact ⟨_, _, hcut, hrest, Prod.ext rfl hboth,
    fun limit hlimit => ((hrunTo "END").enough (Prod.ext rfl hboth) limit).1 hlimit,
    _, hloop, hmore, (hrun.resume hloop 4).2.2.2.mp hmore⟩

end HackVm.Machine
