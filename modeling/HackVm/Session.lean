/-
Translating a program, one unit after the other.

A `Session` holds what was translated so far: the lines, the numbers that the
next labels take and the names of the units. `Session.start` begins one, with
the bootstrap code if it is wanted, and `Session.addUnit` adds a unit; a unit
that is refused leaves the session as it was.

* **`Session.addSource`** — a source text is read and the unit added;
* **`Session.addSources`**, **`Session.addUnits`** — the same for several, one
  after the other;
* **`translate`** — the lines for a list of units.
-/
import HackVm.Assembly.UnitCode
import HackVm.Options
import HackVm.SourceUnit.Reader

namespace HackVm

open Assembly

/-- What was translated so far. -/
structure Session where
  options : Options
  labels : Labels
  lines : List Line
  /-- The names of the units, the last one first. -/
  units : List String
  deriving Repr

/-- A session with no unit yet. -/
def Session.start (options : Options) : Session :=
  if options.bootstrap then
    { options, units := [], labels := Labels.take {} .call,
      lines := bootstrap options.stackBase options.entry (Labels.next {} .call) }
  else { options, units := [], labels := {}, lines := [] }

/-- The printed lines of a session. -/
def Session.printed (s : Session) : List String :=
  Assembly.printed s.options.annotate s.lines

/-- Checks that every instruction of a unit is one that a line of source can hold. -/
def SourceUnit.check (u : SourceUnit) : Except TranslateError Unit :=
  u.lines.forM fun l =>
    l.instruction.check.mapError fun cause =>
      .malformedLine u.name l.number ⟨cause, l.instruction.text⟩

/-- Checks that a unit may be added to a session: its name is a symbol and new, and its
instructions are such as a source holds. -/
def Session.accepts (s : Session) (u : SourceUnit) : Except TranslateError Unit := do
  if !isSymbol u.name then throw (.invalidUnitName u.name)
  u.check
  if u.name ∈ s.units then throw (.duplicateUnit u.name)

/-- The lines that a session adds for a unit. -/
def Session.unitLines (s : Session) (u : SourceUnit) : List Line :=
  codeFrom ⟨u.name, none⟩ s.labels u.instructions

/-- What is told when a unit is added. -/
def Session.unitLog (s : Session) (u : SourceUnit) : List Event :=
  u.lines.map (fun l => .translating u.name l.number l.instruction) ++
    [.translatedUnit u.name u.lines.length (kept s.options.annotate (s.unitLines u)).length]

/-- A session with the lines of a unit that it accepts at its end. -/
def Session.append (s : Session) (u : SourceUnit) : Session :=
  { s with
    labels := s.labels.afterAll u.instructions
    lines := s.lines ++ s.unitLines u
    units := u.name :: s.units }

/-- Adds a unit to a session. -/
def Session.addUnit (s : Session) (u : SourceUnit) : Logged (Except TranslateError Session) :=
  match s.accepts u with
  | .error e => ⟨[], .error e⟩
  | .ok () => ⟨s.unitLog u, .ok (s.append u)⟩

/-- Reads a source text as a unit and adds it to a session. -/
def Session.addSource (s : Session) (name source : String) :
    Logged (Except TranslateError Session) :=
  let reading := SourceUnit.read name source s.options.strict
  match reading.value with
  | .error e => ⟨reading.log, .error e⟩
  | .ok u =>
    let adding := s.addUnit u
    ⟨reading.log ++ adding.log, adding.value⟩

/-- Adds named source texts to a session, up to the first that is refused. -/
def Session.addSources (s : Session) :
    List (String × String) → Logged (Except TranslateError Session)
  | [] => ⟨[], .ok s⟩
  | (name, source) :: rest =>
    let adding := s.addSource name source
    match adding.value with
    | .error e => ⟨adding.log, .error e⟩
    | .ok s =>
      let others := s.addSources rest
      ⟨adding.log ++ others.log, others.value⟩

/-- Adds units to a session, up to the first that is refused. -/
def Session.addUnits (s : Session) : List SourceUnit → Logged (Except TranslateError Session)
  | [] => ⟨[], .ok s⟩
  | u :: rest =>
    let adding := s.addUnit u
    match adding.value with
    | .error e => ⟨adding.log, .error e⟩
    | .ok s =>
      let others := s.addUnits rest
      ⟨adding.log ++ others.log, others.value⟩

/-- The lines of a program. -/
def translate (options : Options) (units : List SourceUnit) :
    Logged (Except TranslateError (List String)) :=
  ((Session.start options).addUnits units).map fun r => r.map Session.printed

end HackVm
