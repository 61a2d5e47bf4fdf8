/-
Files and directories.

A `Disk` is a tree of directories and the directory that paths start from. A
path is walked piece by piece: every piece but the last needs a directory
before it, and so does a slash at the end.

* **`Disk.find`** — what a path leads to;
* **`Disk.read`**, **`Disk.dir?`** — the file or the directory that it leads to;
* **`Disk.write`** — the disk with a file where a path leads to.
-/
import HackVm.Path

namespace HackVm

/-- A file with its bytes, or a directory with its entries in the order of their listing. -/
inductive Node where
  | file (content : List UInt8)
  | dir (entries : List (String × Node))

/-- Why a path cannot be used. -/
inductive OsError where
  | notFound
  | notDirectory
  | isDirectory
  | nameTooLong
  /-- The path has a character that ends it. -/
  | endsEarly
  deriving DecidableEq, Repr

/-- An error in the words of the system. -/
def OsError.message : OsError → String
  | .notFound => "No such file or directory (os error 2)"
  | .notDirectory => "Not a directory (os error 20)"
  | .isDirectory => "Is a directory (os error 21)"
  | .nameTooLong => "File name too long (os error 36)"
  | .endsEarly => "file name contained an unexpected NUL byte"

/-- Whether a node is a directory. -/
def Node.isDir : Node → Bool
  | .dir _ => true
  | .file _ => false

/-- The node below a node that names lead to. -/
def Node.get? : Node → List String → Option Node
  | node, [] => some node
  | .file _, _ :: _ => none
  | .dir entries, name :: rest =>
    match entries.lookup name with
    | some node => node.get? rest
    | none => none

/-- Entries with a node under a name, in the place of one that has the name. -/
def setEntry (name : String) (node : Node) : List (String × Node) → List (String × Node)
  | [] => [(name, node)]
  | (other, old) :: rest =>
    if other = name then (name, node) :: rest else (other, old) :: setEntry name node rest

/-- A tree with a node where names lead to, and with the directories on the way. -/
def Node.put (new : Node) : Node → List String → Node
  | _, [] => new
  | node, name :: rest =>
    let entries := match node with
      | .dir entries => entries
      | .file _ => []
    .dir (setEntry name (new.put ((entries.lookup name).getD (.dir [])) rest) entries)

/-- A tree of files and the names that lead to the current directory. -/
structure Disk where
  root : Node
  current : List String

/-- One step from a place on a disk. -/
def Disk.step (disk : Disk) (place : List String) (piece : String) :
    Except OsError (List String) :=
  match disk.root.get? place with
  | none => .error .notFound
  | some (.file _) => .error .notDirectory
  | some (.dir _) =>
    if isIdle piece then .ok place
    else if piece = ".." then .ok place.dropLast
    else if 255 < piece.utf8ByteSize then .error .nameTooLong
    else if (disk.root.get? (place ++ [piece])).isSome then .ok (place ++ [piece])
    else .error .notFound

/-- The place that a path starts from. -/
def Disk.start (disk : Disk) (p : Path) : List String :=
  if p.text.toList.head? = some '/' then [] else disk.current

/-- The number of bytes that the text of a path has to stay below. -/
def pathLimit : Nat := 4096

/-- Checks that a path is one that can be walked at all. -/
def Path.check (p : Path) : Except OsError Unit :=
  if p.text.toList.contains '\x00' then .error .endsEarly
  else if p.text = "" then .error .notFound
  else if pathLimit ≤ p.text.utf8ByteSize then .error .nameTooLong
  else .ok ()

/-- Whether a path is one that can be walked. -/
def Path.isWalkable (p : Path) : Bool :=
  p.check.isOk

/-- The names that lead from the root to where a path leads. -/
def Disk.locate (disk : Disk) (p : Path) : Except OsError (List String) := do
  p.check
  p.pieces.foldlM disk.step (disk.start p)

/-- What a path leads to. -/
def Disk.find (disk : Disk) (p : Path) : Except OsError Node := do
  let place ← disk.locate p
  match disk.root.get? place with
  | some node => return node
  | none => throw .notFound

/-- The directory that a path leads to, if it does. -/
def Disk.dir? (disk : Disk) (p : Path) : Option Node :=
  match disk.find p with
  | .ok (.dir entries) => some (.dir entries)
  | _ => none

/-- The bytes of the file that a path leads to. -/
def Disk.read (disk : Disk) (p : Path) : Except OsError (List UInt8) := do
  match ← disk.find p with
  | .file content => return content
  | .dir _ => throw .isDirectory

/-- The names that lead to where a file is written: to an existing directory and one more. The
path must not end in a slash, nor lead to a directory. -/
def Disk.target (disk : Disk) (p : Path) : Except OsError (List String) := do
  p.check
  match p.pieces.reverse.dropWhile (· = "") with
  | [] => throw .isDirectory
  | name :: before =>
    let place ← before.reverse.foldlM disk.step (disk.start p)
    let inside ← disk.step place "."
    if name = "." || name = ".." || p.text.toList.getLast? = some '/' then throw .isDirectory
    if 255 < name.utf8ByteSize then throw .nameTooLong
    match disk.root.get? (inside ++ [name]) with
    | some (.dir _) => throw .isDirectory
    | _ => return inside ++ [name]

/-- The disk with a file where a path leads to, in the place of one that is there. -/
def Disk.write (disk : Disk) (p : Path) (content : List UInt8) : Except OsError Disk := do
  let place ← disk.target p
  return { disk with root := (Node.file content).put disk.root place }

end HackVm
