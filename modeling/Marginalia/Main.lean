import Marginalia.CommandLine.Answer

/-!
# The program

The outer layer: it looks at the disk where a run may look, runs, and writes what the run came to.
-/

namespace Marginalia

/-- What stands at a path of the disk, with everything below it. Links are not followed. -/
partial def readTree (path : String) : IO (Option FileTree) := do
  let place := (← IO.currentDir) / path
  if ← place.isDir then
    let mut entries := []
    for entry in ← place.readDir do
      if let some tree ← readTree entry.path.toString then
        entries := (Text.ofString entry.fileName, tree) :: entries
    return some (.directory entries)
  else if ← place.pathExists then
    return some (.file (← IO.FS.readBinFile place).toList)
  else
    return none

/-- Adds what stands at some paths to a tree. -/
def addPaths (files : FileTree) (paths : List Text) : IO FileTree :=
  paths.foldlM (fun files path => do
    match ← readTree path.toString with
    | some tree => return tree.graft (Path.normalize path) files
    | none => return files) files

end Marginalia

open Marginalia in
/-- Runs the program on the arguments it was called with. -/
def main (arguments : List String) : IO UInt32 := do
  let here ← IO.currentDir
  let cwd := Path.resolve "/" here.toString
  let words := arguments.map Text.ofString
  let empty := (FileTree.directory []).graft (Path.normalize cwd) (.directory [])
  let configured ← addPaths empty
      (CommandLine.Surroundings.footprint ⟨empty, cwd, Collation.precedes⟩ words)
  let files ← addPaths configured
      (CommandLine.Surroundings.footprint ⟨configured, cwd, Collation.precedes⟩ words)
  let outcome := CommandLine.Surroundings.run ⟨files, cwd, Collation.precedes⟩ words
  (← IO.getStdout).putStr outcome.stdout.toString
  (← IO.getStderr).putStr outcome.stderr.toString
  return outcome.exitCode.toUInt32
