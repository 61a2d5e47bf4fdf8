/-
Runs of the target machine, bounded by a number of steps.

* **`run`** — until the counter has left the program;
* **`runTo`** — until the counter stands at a label.

Whether the run is over is asked before each step, so a run of no steps is never
over. A run that fails leaves the machine in the state in which it failed.
-/
import HackVm.Machine.Basic

namespace HackVm.Machine

/-- How a bounded run ends. -/
inductive Ending where
  /-- It was over after so many steps. -/
  | over (steps : Nat)
  | fault (fault : Fault)
  /-- No steps were left. -/
  | unfinished
  deriving DecidableEq, Repr

/-- Carries out at most the given number of steps, until the run is over; `taken` steps were
carried out before. -/
def advance (p : Program) (isOver : State → Bool) : Nat → Nat → State → State × Ending
  | 0, _, s => (s, .unfinished)
  | limit + 1, taken, s =>
    if isOver s then (s, .over taken)
    else match step p s with
      | (s, none) => advance p isOver limit (taken + 1) s
      | (s, some fault) => (s, .fault fault)

/-- Why a run does not end as asked. -/
inductive RunError where
  | fault (fault : Fault)
  | stillRunning (limit : Nat)
  | notReached (label : String) (limit : Nat)
  | noLabel (label : String)
  deriving DecidableEq, Repr

/-- A run error in words. -/
def RunError.message : RunError → String
  | .fault f => f.message
  | .stillRunning limit => s!"program still running after {limit} steps"
  | .notReached label limit => s!"'{label}' not reached after {limit} steps"
  | .noLabel label => s!"no label '{label}'"

/-- The number of steps of a run that is over, and otherwise an error. -/
def Ending.steps (unfinished : RunError) : Ending → Except RunError Nat
  | .over steps => .ok steps
  | .fault f => .error (.fault f)
  | .unfinished => .error unfinished

/-- Runs a program until its counter has left it, for at most the given number of steps. -/
def run (p : Program) (limit : Nat) (s : State) : State × Except RunError Nat :=
  let (s, ending) := advance p (fun s => p.code.size ≤ s.pc) limit 0 s
  (s, ending.steps (.stillRunning limit))

/-- Runs a program until its counter stands at a label, for at most the given number of
steps. -/
def runTo (p : Program) (label : String) (limit : Nat) (s : State) :
    State × Except RunError Nat :=
  match p.labels[label]? with
  | none => (s, .error (.noLabel label))
  | some target =>
    let (s, ending) := advance p (fun s => s.pc = target.toNat) limit 0 s
    (s, ending.steps (.notReached label limit))

end HackVm.Machine
