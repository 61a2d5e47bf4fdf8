/-
A run of the program.

The units are loaded. If a listing is wanted it is shown, and nothing else
happens. Otherwise the bundle is written if one is wanted, the units are
translated, and the assembly is written; the first step that fails ends the
run, and what was written before stays.
-/
import HackVm.CommandLine.Args
import HackVm.CommandLine.Load
import HackVm.Session
import HackVm.SourceUnit.Listing

namespace HackVm

/-- What a run has done so far: the disk, the files it wrote, the events it told, and the lines it
showed. -/
structure Progress where
  disk : Disk
  written : List Path := []
  log : List Event := []
  shown : List String := []

/-- What a run leaves. -/
structure Outcome where
  status : Nat
  stdout : String
  stderr : String
  disk : Disk
  /-- The files that were written, in order. -/
  written : List Path

/-- Lines as a text, each with a line feed behind it. -/
def textOfLines (lines : List String) : String :=
  String.join (lines.map (· ++ "\n"))

/-- Where the assembly is written if the arguments do not say: beside a file, with another
extension, or in a directory, under its own name. -/
def Args.outputPath (args : Args) (disk : Disk) : Path :=
  match args.output with
  | some path => path
  | none =>
    if (disk.dir? args.input).isSome then
      let name := match disk.locate args.input with
        | .ok place => place.getLast?
        | .error _ => none
      (args.input.join (name.getD "out")).withExtension "asm"
    else args.input.withExtension "asm"

/-- The assembly of a program as the text of a file. -/
def assemblyText (lines : List String) : String :=
  "\n".intercalate lines ++ "\n"

/-- Writes a file, or fails to. -/
def Progress.write (p : Progress) (file : Path) (content : List UInt8) :
    Progress × Option Failure :=
  match p.disk.write file content with
  | .error e => (p, some (.unwritable file e))
  | .ok disk => ({ p with disk, written := p.written ++ [file] }, none)

/-- Adds events to those told. -/
def Progress.tell (p : Progress) (log : List Event) : Progress :=
  { p with log := p.log ++ log }

/-- Writes the bundle of the units, if one is wanted. -/
def Args.writeBundle (args : Args) (units : List SourceUnit) (p : Progress) :
    Progress × Option Failure :=
  match args.emitIr with
  | none => (p, none)
  | some file =>
    match p.write file (Bundle.encode units) with
    | (p, some e) => (p, some e)
    | (p, none) => (p.tell [.wroteBundle units.length file.text], none)

/-- Translates the units and writes the assembly. -/
def Args.writeAssembly (args : Args) (units : List SourceUnit) (p : Progress) :
    Progress × Option Failure :=
  let r := translate args.options units
  let p := p.tell r.log
  match r.value with
  | .error e => (p, some (.untranslatable e))
  | .ok lines =>
    let file := args.outputPath p.disk
    match p.write file (assemblyText lines).toUTF8.data.toList with
    | (p, some e) => (p, some e)
    | (p, none) => (p.tell [.translatedProgram units.length lines.length file.text], none)

/-- Does what the arguments ask for: what is done, and why it fails if it does. -/
def Args.perform (args : Args) (disk : Disk) : Progress × Option Failure :=
  let loading := loadUnits disk args.strict args.input
  let p : Progress := { disk, log := loading.log }
  match loading.value with
  | .error e => (p, some e)
  | .ok units =>
    if args.dump then
      ({ p with shown := units.flatMap (SourceUnit.listing !args.noColor) }, none)
    else
      match args.writeBundle units p with
      | (p, some e) => (p, some e)
      | (p, none) => args.writeAssembly units p

/-- Does what the arguments ask for, and shows it. -/
def Args.run (args : Args) (disk : Disk) : Outcome :=
  let (p, failure) := args.perform disk
  let told := (p.log.filter args.verbosity.shows).map (Event.line !args.noColor)
  let complaint := failure.toList.map fun e => s!"error: {e.message}"
  { status := if failure.isSome then 1 else 0
    stdout := textOfLines p.shown
    stderr := textOfLines (told ++ complaint)
    disk := p.disk
    written := p.written }

/-- How the program is called. -/
def helpText : String := textOfLines [
  "VM to Hack assembly translator",
  "",
  "Usage: vmtrans [OPTIONS] <INPUT>",
  "",
  "Arguments:",
  "  <INPUT>  A .vm file, a directory of .vm files, or a .vmir bundle",
  "",
  "Options:",
  "  -o, --output <OUTPUT>  Output .asm path",
  "      --no-bootstrap     Do not emit the bootstrap block",
  "      --entry <ENTRY>    Function called by the bootstrap block [default: Sys.init]",
  "      --strict           Treat unknown opcodes as errors",
  "      --no-annotate      Omit the `// op` / `// ~op` comments",
  "      --dump             Print the parsed instructions instead of translating",
  "      --no-color         Disable colored output",
  "      --emit-ir <PATH>   Also write the parsed units as a postcard bundle",
  "  -v, --verbose...       More logging (-v info, -vv debug, -vvv trace)",
  "  -q, --quiet            Only log errors",
  "  -h, --help             Print help",
  "  -V, --version          Print version"]

/-- The version of the program. -/
def versionText : String := textOfLines ["vmtrans 0.1.0"]

/-- What is wrong with the arguments, in words. -/
def UsageError.message : UsageError → String
  | .unknownArgument => "error: unexpected argument found"
  | .missingInput => "error: the following required arguments were not provided: <INPUT>"
  | .invalidValue => "error: a value is required for an argument but none was supplied"
  | .conflict => "error: an argument cannot be used multiple times"
  | .tooManyValues => "error: unexpected value for an argument found"
  | .showHelp => helpText
  | .showVersion => versionText

/-- What a run leaves that does not use its arguments. -/
def UsageError.outcome (e : UsageError) (disk : Disk) : Outcome :=
  match e with
  | .showHelp | .showVersion =>
    { status := 0, stdout := e.message, stderr := "", disk, written := [] }
  | _ =>
    { status := 2, stdout := "", disk, written := []
      stderr := textOfLines [e.message, "", "Usage: vmtrans [OPTIONS] <INPUT>", "",
        "For more information, try '--help'."] }

/-- A run of the program on a disk. -/
def runProgram (disk : Disk) (args : List String) : Outcome :=
  match Args.parse args with
  | .error e => e.outcome disk
  | .ok args => args.run disk

end HackVm
