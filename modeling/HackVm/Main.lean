/-
The program: a run on the files of the system.

The part of the file system that the arguments name is copied to a `Disk`, the
run takes place there, and the files that it wrote are written back.
-/
import HackVm.CommandLine.Run

namespace HackVm.Main

/-- A file or directory of the system with what is below it. Of the files in a directory only
the sources are read. -/
partial def snapshot (path : String) (read : Bool) : IO (Option Node) := do
  try
    let place ← IO.FS.realPath path
    if ← place.isDir then
      let entries := (← place.readDir).toList.map (·.fileName)
      let nodes ← (entries.filter fun name => !isHidden name).mapM fun name => do
        return (name, ← snapshot (Path.join ⟨path⟩ name).text (isSource name))
      return some (.dir (nodes.filterMap fun (name, node) => node.map (name, ·)))
    else if read then
      return some (.file (← IO.FS.readBinFile path).data.toList)
    else return some (.file [])
  catch _ => return none

/-- The names that lead to where a path leads if all its directories exist. -/
def placeOf (disk : Disk) (p : Path) : List String :=
  p.pieces.foldl (fun place piece =>
    if isIdle piece then place else if piece = ".." then place.dropLast else place ++ [piece])
    (disk.start p)

/-- Adds to a disk what is found on the way along a path, without what is below it. -/
def survey (disk : Disk) (p : Path) : IO Disk :=
  (List.range p.pieces.length).foldlM (fun disk k => do
    let front : Path := ⟨"/".intercalate (p.pieces.take (k + 1))⟩
    let place := placeOf disk front
    if (disk.root.get? place).isSome then return disk
    try
      let node := if ← (← IO.FS.realPath front.text).isDir then Node.dir [] else Node.file []
      return { disk with root := node.put disk.root place }
    catch _ => return disk) disk

/-- The part of the file system that arguments name. -/
def diskFor (args : Args) : IO Disk := do
  let current := ((← IO.currentDir).toString.splitOn "/").filter (· ≠ "")
  let mut disk : Disk := { root := (Node.dir []).put (.dir []) current, current }
  for p in args.input :: (args.output.toList ++ args.emitIr.toList) do
    disk ← survey disk p
  match ← snapshot args.input.text true with
  | some node => return { disk with root := node.put disk.root (placeOf disk args.input) }
  | none => return disk

/-- Writes the files that a run wrote, and tells which could not be written. -/
def writeBack (outcome : Outcome) : IO (List String) :=
  outcome.written.filterMapM fun p => do
    match outcome.disk.read p with
    | .error _ => return none
    | .ok content =>
      try
        IO.FS.writeBinFile p.text ⟨content.toArray⟩
        return none
      catch e => return some s!"error: writing {p.text}: {e}"

end HackVm.Main

open HackVm HackVm.Main in
def main (args : List String) : IO UInt32 := do
  let disk ← match Args.parse args with
    | .ok args => diskFor args
    | .error _ => pure { root := .dir [], current := [] }
  let outcome := runProgram disk args
  let failures ← writeBack outcome
  IO.print outcome.stdout
  IO.eprint (outcome.stderr ++ textOfLines failures)
  return if failures.isEmpty then UInt32.ofNat outcome.status else 1
