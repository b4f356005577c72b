import Adhoc.CommandLine
import Adhoc.Tree.Includes

namespace Adhoc.CommandLine

/-- Looks a path up on disk. -/
def fetch (files : Files) (path : String) : IO Files := do
  try
    return files.addFile path (← IO.FS.readBinFile path)
  catch _ =>
    try
      let _ ← IO.FS.realPath path
      return files.addFolder path
    catch _ => return files

/-- A program with all that it includes from the given folders. -/
partial def fetchProgram (folders : List String) (files : Files) (path : String) : IO Files := do
  if files.contains path then return files
  let files ← fetch files path
  match files.readProgram path with
  | .error _ => return files
  | .ok program =>
    program.includePaths.foldlM (fun files name =>
      folders.foldlM (fun files folder => fetchProgram folders files (Path.join folder name)) files)
      files

def fetchInput (files : Files) (input : String) (includeFolder : Option String) : IO Files := do
  if isProject input then
    let files ← fetch files input
    match Project.load files input with
    | .error _ => return files
    | .ok project =>
      let folders := [project.includeDir, project.dir]
      let files ← project.files.foldlM (fun files file =>
        fetchProgram folders files (project.filePath file)) files
      fetch files (Path.parent project.outputPath)
  else fetchProgram [includeFolder.getD (Path.parent input)] files input

def fetchAll (files : Files) : Command → IO Files
  | .build r => do
    let files ← fetchInput files r.input r.includeFolder
    match outputPath files r.input, r.output with
    | _, some output | .ok output, none => do
      let files ← fetch files (Path.parent output)
      fetch files output
    | .error _, none => return files
  | .dump input _ => fetchInput files input none
  | .version => return files

/-- The mark of a build that has none of its own. -/
def noFingerprint : String := "00000000000000000000000000000000"

/-- Writes the file that a run made. -/
def store (outcome : Outcome) : IO Nat := do
  match outcome.written with
  | none => return outcome.status
  | some path =>
    try
      IO.FS.writeBinFile path ((outcome.files.read? path).getD .empty)
      return outcome.status
    catch _ =>
      let failed := Failed.unwritable path
      IO.eprintln failed.message
      return failed.status

end Adhoc.CommandLine

open Adhoc CommandLine in
def main (args : List String) : IO UInt32 := do
  let folder := (← IO.currentDir).toString
  let files := Files.start (Files.keyOf { home := [] } folder)
  let files ← match Command.ofArguments Version.latestCommon.number args with
    | .ok command => fetchAll files command
    | .error _ => pure files
  let outcome := run files noFingerprint args
  IO.print outcome.out
  IO.eprint outcome.err
  return UInt32.ofNat (← store outcome)
