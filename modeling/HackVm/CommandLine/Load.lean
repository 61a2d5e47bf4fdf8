/-
Loading the units of a program.

The input is a source file, a bundle, or a directory. The program in a directory
is made of all source files in it and below it that are not hidden and in no
hidden directory, in the order of their paths, step by step; the order in which
a directory lists its entries does not matter. The files are looked for and read
under the path of the input with their names behind it, so an input close to the
limit on the length of paths may hide some of them.
-/
import HackVm.Bundle.Codec
import HackVm.CommandLine.Failure
import HackVm.SourceUnit.Reader
import HackVm.UnitName

namespace HackVm

/-- The extension of source files. -/
def sourceExtension : String := "vm"

/-- The extension of bundles. -/
def bundleExtension : String := "vmir"

/-- Whether a name has the extension of source files. -/
def isSource (name : String) : Bool :=
  (splitExtension name).2 = some sourceExtension

/-- Whether a name begins with a dot. -/
def isHidden (name : String) : Bool :=
  name.toList.head? = some '.'

mutual
/-- The names that lead from a directory with the given path to the source files in and below
it. -/
def Node.sources (dir : Path) : Node → List (List String)
  | .file _ => []
  | .dir entries => sourcesAmong dir entries
/-- The names that lead to the source files among the entries of a directory and below them.
Hidden entries are left out. A directory whose path is too long to be walked counts as a file, as
there is no telling that it is none. -/
def sourcesAmong (dir : Path) : List (String × Node) → List (List String)
  | [] => []
  | (name, node) :: rest =>
    let path := dir.join name
    let here :=
      if isHidden name then []
      else if node.isDir && path.isWalkable then (node.sources path).map (name :: ·)
      else if isSource name then [[name]]
      else []
    here ++ sourcesAmong dir rest
end

/-- Whether names that lead to a file come before others or are the same, step by step. -/
def inOrder : List String → List String → Bool
  | [], _ => true
  | _ :: _, [] => false
  | name :: rest, other :: others =>
    match compare name other with
    | .lt => true
    | .eq => inOrder rest others
    | .gt => false

/-- The paths of the source files of a program in a directory, in their order. -/
def sourceFiles (input : Path) (dir : Node) : List Path :=
  ((dir.sources input).mergeSort inOrder).map fun names => names.foldl Path.join input

/-- The text of a source file. -/
def Disk.readText (disk : Disk) (file : Path) : Except ReadError String :=
  match disk.read file with
  | .error e => .error (.os e)
  | .ok content =>
    match String.fromUTF8? ⟨content.toArray⟩ with
    | some text => .ok text
    | none => .error .notText

/-- The unit in a source file. -/
def loadSource (disk : Disk) (strict : Bool) (root file : Path) :
    Logged (Except Failure SourceUnit) :=
  match disk.readText file with
  | .error e => ⟨[], .error (.unreadable file e)⟩
  | .ok source =>
    (SourceUnit.read (unitName root file) source strict).map fun r =>
      r.mapError (Failure.badSource file)

/-- The units in source files, up to the first that cannot be loaded. -/
def loadSources (disk : Disk) (strict : Bool) (root : Path) :
    List Path → Logged (Except Failure (List SourceUnit))
  | [] => ⟨[], .ok []⟩
  | file :: rest =>
    let first := loadSource disk strict root file
    match first.value with
    | .error e => ⟨first.log, .error e⟩
    | .ok u =>
      let others := loadSources disk strict root rest
      ⟨first.log ++ others.log, others.value.map (u :: ·)⟩

/-- The directory that a file is in, as the root of its program. -/
def Path.parent (p : Path) : Path :=
  .ofComponents p.components.dropLast

/-- The units of the program that a path leads to. -/
def loadUnits (disk : Disk) (strict : Bool) (input : Path) :
    Logged (Except Failure (List SourceUnit)) :=
  match disk.dir? input with
  | some dir =>
    let files := sourceFiles input dir
    if files.isEmpty then ⟨[], .error (.noSources input)⟩
    else loadSources disk strict input files
  | none =>
    if input.extension? = some sourceExtension then
      loadSources disk strict input.parent [input]
    else if input.extension? = some bundleExtension then
      match disk.read input with
      | .error e => ⟨[], .error (.unreadable input (.os e))⟩
      | .ok content => ⟨[], (Bundle.decode content).mapError (.badBundle input)⟩
    else ⟨[], .error (.unknownInput input)⟩

end HackVm
