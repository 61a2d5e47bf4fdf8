/-
The arguments of the program.

`Args.parse` reads them from left to right. A value of an option may be attached
to it or be the next argument, as long as that does not begin with a dash; a
single dash is a value, and behind two dashes everything is. A value that is not
attached is settled only when the next option is met or the arguments end: only
then is it found to be missing, given twice, or an empty path.
-/
import HackVm.Log
import HackVm.Options
import HackVm.Path

namespace HackVm

/-- Why the arguments are not used, or what is shown instead. -/
inductive UsageError where
  | unknownArgument
  | missingInput
  /-- An option without its value, or an empty path. -/
  | invalidValue
  /-- Something given twice. -/
  | conflict
  /-- A value attached to something that takes none. -/
  | tooManyValues
  | showHelp
  | showVersion
  deriving DecidableEq, Repr

/-- What the arguments choose beside the input. -/
structure Choices where
  output : Option Path := none
  noBootstrap : Bool := false
  entry : Option String := none
  strict : Bool := false
  noAnnotate : Bool := false
  dump : Bool := false
  noColor : Bool := false
  emitIr : Option Path := none
  verbose : Nat := 0
  quiet : Bool := false
  deriving DecidableEq, Repr

/-- What the arguments ask for. -/
structure Args extends Choices where
  input : Path
  deriving DecidableEq, Repr

/-- The settings of the translator that the arguments ask for. -/
def Args.options (args : Args) : Options :=
  let default : Options := {}
  { default with
    bootstrap := !args.noBootstrap
    entry := args.entry.getD default.entry
    strict := args.strict
    annotate := !args.noAnnotate }

/-- How much is shown. -/
def Args.verbosity (args : Args) : Verbosity :=
  ⟨args.verbose, args.quiet⟩

namespace CommandLine

/-- An argument that takes no value. -/
inductive Flag where
  | noBootstrap
  | strict
  | noAnnotate
  | dump
  | noColor
  | verbose
  | quiet
  | help
  | version
  deriving DecidableEq, Repr

/-- A place for a value. -/
inductive Slot where
  | input
  | output
  | entry
  | emitIr
  deriving DecidableEq, Repr

/-- What an option is: a flag, or a place for a value. -/
inductive Meaning where
  | flag (f : Flag)
  | slot (s : Slot)
  deriving DecidableEq, Repr

/-- The option behind two dashes. -/
def long? (name : String) : Option Meaning :=
  match name with
  | "output" => some (.slot .output)
  | "no-bootstrap" => some (.flag .noBootstrap)
  | "entry" => some (.slot .entry)
  | "strict" => some (.flag .strict)
  | "no-annotate" => some (.flag .noAnnotate)
  | "dump" => some (.flag .dump)
  | "no-color" => some (.flag .noColor)
  | "emit-ir" => some (.slot .emitIr)
  | "verbose" => some (.flag .verbose)
  | "quiet" => some (.flag .quiet)
  | "help" => some (.flag .help)
  | "version" => some (.flag .version)
  | _ => none

/-- The option behind one dash. -/
def short? (c : Char) : Option Meaning :=
  match c with
  | 'o' => some (.slot .output)
  | 'v' => some (.flag .verbose)
  | 'q' => some (.flag .quiet)
  | 'h' => some (.flag .help)
  | 'V' => some (.flag .version)
  | _ => none

/-- What was given so far. -/
structure Draft extends Choices where
  input : Option Path := none
  deriving DecidableEq, Repr

/-- A flag that may be given once. -/
def once (given : Bool) (draft : Draft) : Except UsageError Draft :=
  if given then .error .conflict else .ok draft

/-- A flag was given. -/
def Draft.raise (d : Draft) : Flag → Except UsageError Draft
  | .noBootstrap => once d.noBootstrap { d with noBootstrap := true }
  | .strict => once d.strict { d with strict := true }
  | .noAnnotate => once d.noAnnotate { d with noAnnotate := true }
  | .dump => once d.dump { d with dump := true }
  | .noColor => once d.noColor { d with noColor := true }
  | .verbose => .ok { d with verbose := min (d.verbose + 1) 255 }
  | .quiet => once d.quiet { d with quiet := true }
  | .help => .error .showHelp
  | .version => .error .showVersion

/-- A path for a place that may be filled once. -/
def path (old : Option Path) (value : String) : Except UsageError (Option Path) :=
  if old.isSome then .error .conflict
  else if value = "" then .error .invalidValue
  else .ok (some ⟨value⟩)

/-- A value was given for a place. -/
def Draft.fill (d : Draft) (slot : Slot) (value : String) : Except UsageError Draft :=
  match slot with
  | .input => return { d with input := ← path d.input value }
  | .output => return { d with output := ← path d.output value }
  | .emitIr => return { d with emitIr := ← path d.emitIr value }
  | .entry => if d.entry.isSome then .error .conflict else .ok { d with entry := some value }

/-- The state of reading: what was given, the place that a value is awaited or was met for, and
whether two dashes were met. -/
structure Scan where
  draft : Draft := {}
  pending : Option (Slot × Option String) := none
  escaped : Bool := false
  deriving DecidableEq, Repr

/-- Puts the value that was met into its place. -/
def Scan.settle (s : Scan) : Except UsageError Draft :=
  match s.pending with
  | none => .ok s.draft
  | some (_, none) => .error .invalidValue
  | some (slot, some value) => s.draft.fill slot value

/-- A flag was met. -/
def Scan.raise (s : Scan) (flag : Flag) : Except UsageError Scan := do
  let draft ← s.settle
  return { s with draft := ← draft.raise flag, pending := none }

/-- An option was met whose value is the next argument. -/
def Scan.await (s : Scan) (slot : Slot) : Except UsageError Scan :=
  return { s with draft := ← s.settle, pending := some (slot, none) }

/-- An option was met with its value. -/
def Scan.fill (s : Scan) (slot : Slot) (value : String) : Except UsageError Scan := do
  let draft ← s.settle
  return { s with draft := ← draft.fill slot value, pending := none }

/-- A value was met that belongs to no option. -/
def Scan.positional (s : Scan) (value : String) : Except UsageError Scan :=
  if s.draft.input.isSome || (s.pending.map Prod.fst == some .input) then .error .unknownArgument
  else return { s with draft := ← s.settle, pending := some (.input, some value) }

/-- An option was met behind two dashes; a value may be attached with an equals sign. -/
def Scan.long (s : Scan) (text : List Char) : Except UsageError Scan :=
  let name := String.ofList (text.takeWhile (· ≠ '='))
  match long? name, text.dropWhile (· ≠ '=') with
  | none, _ => .error .unknownArgument
  | some (.flag flag), [] => s.raise flag
  | some (.flag _), _ => .error .tooManyValues
  | some (.slot slot), [] => s.await slot
  | some (.slot slot), _ :: value => s.fill slot (String.ofList value)

/-- Options were met behind one dash. What follows one that takes a value is its value, with or
without an equals sign. -/
def Scan.short (s : Scan) : List Char → Except UsageError Scan
  | [] => .ok s
  | c :: rest =>
    match short? c, rest with
    | none, _ => .error .unknownArgument
    | some (.flag flag), _ => do (← s.raise flag).short rest
    | some (.slot slot), [] => s.await slot
    | some (.slot slot), '=' :: value => s.fill slot (String.ofList value)
    | some (.slot slot), value => s.fill slot (String.ofList value)

/-- An argument that is no option: the value that is awaited, or the input. -/
def Scan.value (s : Scan) (value : String) : Except UsageError Scan :=
  match s.pending with
  | some (slot, none) => .ok { s with pending := some (slot, some value) }
  | _ => s.positional value

/-- The next argument was met. -/
def Scan.next (s : Scan) (arg : String) : Except UsageError Scan :=
  if s.escaped then s.positional arg
  else match arg.toList with
    | ['-', '-'] => .ok { s with escaped := true }
    | '-' :: '-' :: text => s.long text
    | '-' :: c :: rest => s.short (c :: rest)
    | _ => s.value arg

/-- What was given as a whole. -/
def Draft.finish (d : Draft) : Except UsageError Args :=
  match d.input with
  | none => .error .missingInput
  | some input => .ok { d.toChoices with input }

end CommandLine

/-- What the arguments of the program ask for. -/
def Args.parse (args : List String) : Except UsageError Args := do
  let scan ← args.foldlM CommandLine.Scan.next {}
  (← scan.settle).finish

end HackVm
