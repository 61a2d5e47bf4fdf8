/-
What the translator tells about its progress.

An `Event` is something worth telling; it has a level (`Event.level`) and a
sentence (`Event.message`). A computation that tells events returns them in
order beside its value (`Logged`). A `Verbosity` says which events are shown,
and `Event.line` how.
-/
import HackVm.Instruction.Basic
import HackVm.Text.Field
import HackVm.Text.Style

namespace HackVm

open Text

/-- How much an event matters, the most important level first. -/
inductive Level where
  | error
  | warn
  | info
  | debug
  | trace
  deriving DecidableEq, Repr

/-- The word for a level. -/
def Level.name : Level → String
  | .error => "ERROR"
  | .warn => "WARN"
  | .info => "INFO"
  | .debug => "DEBUG"
  | .trace => "TRACE"

/-- The place of a level in the order of importance. -/
def Level.rank : Level → Nat
  | .error => 1
  | .warn => 2
  | .info => 3
  | .debug => 4
  | .trace => 5

/-- The style that an event of a level is shown in. -/
def Level.style : Level → Style
  | .error => .boldRed
  | .warn => .boldYellow
  | .info => .plain
  | .debug | .trace => .dim

/-- Something worth telling. -/
inductive Event where
  /-- A single word that is no opcode was left out of a unit. -/
  | skippedOpcode (unit : String) (line : Nat) (opcode : String)
  /-- An instruction is about to be translated. -/
  | translating (unit : String) (line : Nat) (instruction : Instruction)
  /-- A unit was translated into so many lines. -/
  | translatedUnit (unit : String) (instructions lines : Nat)
  /-- The units were written to a bundle. -/
  | wroteBundle (units : Nat) (path : String)
  /-- The whole program was written. -/
  | translatedProgram (units lines : Nat) (path : String)
  deriving DecidableEq, Repr

/-- The level of an event. -/
def Event.level : Event → Level
  | .skippedOpcode .. => .warn
  | .translating .. => .trace
  | .translatedUnit .. => .debug
  | .wroteBundle .. | .translatedProgram .. => .info

/-- An event in words. -/
def Event.message : Event → String
  | .skippedOpcode unit line opcode => s!"{unit}:{line}: skipping unknown opcode '{opcode}'"
  | .translating unit line instruction => s!"{unit}:{line}: {instruction.text}"
  | .translatedUnit unit instructions lines =>
    s!"translated unit '{unit}': {instructions} instructions, {lines} assembly lines"
  | .wroteBundle units path => s!"wrote {units} unit(s) to {path}"
  | .translatedProgram units lines path =>
    s!"translated {units} unit(s) into {lines} lines: {path}"

/-- An event as one line, its level in a field of five characters. -/
def Event.line (color : Bool) (e : Event) : String :=
  e.level.style.paint color s!"[{leftAligned 5 e.level.name}] {e.message}"

/-- A value and the events told on the way to it, in order. -/
structure Logged (α : Type) where
  log : List Event
  value : α

/-- The same events with another value. -/
def Logged.map {α β : Type} (f : α → β) (r : Logged α) : Logged β :=
  ⟨r.log, f r.value⟩

/-- An event told before all others. -/
def Logged.after {α : Type} (e : Event) (r : Logged α) : Logged α :=
  ⟨e :: r.log, r.value⟩

/-- How much is shown: the number of times that more was asked for, and whether only errors
were. -/
structure Verbosity where
  count : Nat := 0
  quiet : Bool := false
  deriving DecidableEq, Repr

/-- The least important level that is shown. -/
def Verbosity.level (v : Verbosity) : Level :=
  if v.quiet then .error
  else match v.count with
    | 0 => .warn
    | 1 => .info
    | 2 => .debug
    | _ => .trace

/-- Whether an event is shown. -/
def Verbosity.shows (v : Verbosity) (e : Event) : Bool :=
  e.level.rank ≤ v.level.rank

end HackVm
