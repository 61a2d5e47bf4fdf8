/-
Loading assembly into the target machine.

A line, without its comment and the blanks around it, is nothing, a label in
parentheses, or a command. First the labels are collected: each names the
command behind it, and none may be defined twice. Then the commands are read,
and last their symbols are resolved. A symbol is a number, a cell that has a
name of its own, a label, or else a variable; variables take the cells from 16
on in the order in which they first appear.
-/
import HackVm.Machine.Basic
import HackVm.Text.Blank
import HackVm.Text.Decimal

namespace HackVm.Machine

open Assembly Text

/-- Why lines of assembly cannot be loaded. -/
inductive LoadError where
  | duplicateLabel (name : String)
  /-- A command whose computation is none. -/
  | badComputation (line : String)
  deriving DecidableEq, Repr

/-- A load error in words. -/
def LoadError.message : LoadError → String
  | .duplicateLabel name => s!"duplicate label '{name}'"
  | .badComputation line => s!"bad comp in '{line}'"

/-- What a line holds that is not blank. -/
inductive Item where
  | label (name : String)
  | command (text : List Char)
  deriving DecidableEq, Repr

/-- The name in a text between parentheses. -/
def parenthesized? : List Char → Option (List Char)
  | '(' :: rest => if rest.getLast? = some ')' then some rest.dropLast else none
  | _ => none

/-- What a line holds, if it is not blank. -/
def item? (line : String) : Option Item :=
  let code := strip line.toList
  if code.isEmpty then none
  else match parenthesized? code with
    | some name => some (.label (String.ofList name))
    | none => some (.command code)

/-- A text up to a character and the text behind it, if the character occurs. -/
def cutAt (c : Char) (text : List Char) : Option (List Char × List Char) :=
  match text.dropWhile (· ≠ c) with
  | [] => none
  | _ :: rest => some (text.takeWhile (· ≠ c), rest)

/-- The command that a computing line holds; blanks inside it do not count. -/
def readCompute? (line : List Char) : Option Command :=
  let text := line.filter fun c => !isBlank c
  let (assignment, jump) := match cutAt ';' text with
    | some (left, right) => (left, Jump.ofMnemonic (String.ofList right))
    | none => (text, .never)
  let (places, comp) := (cutAt '=' assignment).getD ([], assignment)
  let dest : Dest :=
    { a := places.contains 'A', m := places.contains 'M', d := places.contains 'D' }
  (Comp.ofText? (String.ofList comp)).map fun comp => .compute dest comp jump

/-- The command that a line holds. -/
def readCommand (line : List Char) : Except LoadError Command :=
  match line with
  | '@' :: symbol => .ok (.address (String.ofList symbol))
  | _ =>
    match readCompute? line with
    | some command => .ok command
    | none => .error (.badComputation (String.ofList line))

/-- The labels found so far and the number of commands. -/
structure Layout where
  labels : Std.TreeMap String Word := {}
  size : Nat := 0

/-- Adds what a line holds to a layout. -/
def Layout.add (layout : Layout) : Item → Except LoadError Layout
  | .label name =>
    if layout.labels.contains name then .error (.duplicateLabel name)
    else .ok { layout with labels := layout.labels.insert name (BitVec.ofNat 16 layout.size) }
  | .command _ => .ok { layout with size := layout.size + 1 }

/-- A number of at most 16 bits, after at most one plus sign. -/
def readAddress (text : List Char) : Option Word :=
  let digits := match text with
    | '+' :: rest => rest
    | _ => text
  (readUInt16 digits).map UInt16.toBitVec

/-- The cells that have names of their own. -/
def predefined? (symbol : String) : Option Word :=
  match symbol with
  | "SP" => some 0
  | "LCL" => some 1
  | "ARG" => some 2
  | "THIS" => some 3
  | "THAT" => some 4
  | "SCREEN" => some 16384
  | "KBD" => some 24576
  | _ =>
    match symbol.toList with
    | 'R' :: number => (readAddress number).filter fun n => n < 16
    | _ => none

/-- The value of a symbol that does not hang on the variables. -/
def fixed? (labels : Std.TreeMap String Word) (symbol : String) : Option Word :=
  (readAddress symbol.toList).or ((predefined? symbol).or labels[symbol]?)

/-- The variables found so far. -/
abbrev Variables := Std.TreeMap String Word

/-- The value of a symbol, and the variables with it if it is a new one. -/
def Variables.resolve (vars : Variables) (labels : Std.TreeMap String Word)
    (symbol : String) : Word × Variables :=
  match fixed? labels symbol with
  | some value => (value, vars)
  | none =>
    match vars[symbol]? with
    | some value => (value, vars)
    | none =>
      let value := BitVec.ofNat 16 (16 + vars.size)
      (value, vars.insert symbol value)

/-- Appends a command to the code before it, its symbol resolved. -/
def resolveCommand (labels : Std.TreeMap String Word) (state : Variables × Array Op) :
    Command → Variables × Array Op
  | .address symbol =>
    let (value, vars) := state.1.resolve labels symbol
    (vars, state.2.push (.address value))
  | .compute dest comp jump => (state.1, state.2.push (.compute dest comp jump))

/-- The commands of a program with their symbols resolved. -/
def resolve (labels : Std.TreeMap String Word) (commands : List Command) : Array Op :=
  (commands.foldl (resolveCommand labels) (({} : Variables), #[])).2

/-- The text of the command that a line holds. -/
def Item.command? : Item → Option (List Char)
  | .label _ => none
  | .command text => some text

/-- The program written by lines of assembly. -/
def load (lines : List String) : Except LoadError Program := do
  let items := lines.filterMap item?
  let layout ← items.foldlM Layout.add {}
  let commands ← (items.filterMap Item.command?).mapM readCommand
  return { code := resolve layout.labels commands, labels := layout.labels }

end HackVm.Machine
