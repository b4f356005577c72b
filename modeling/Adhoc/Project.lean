import Adhoc.Files.Program
import Adhoc.Project.Basic

namespace Adhoc

inductive ProjectError
  | inaccessible (path : String)
  | faulty (fault : ProjectFault)
  | noMainFile
  | severalMainFiles (first second : String)
  | badFile (path : String) (error : FileError)
  | failed (failure : Failure)
deriving DecidableEq, Repr

def ProjectFault.message : ProjectFault → String
  | .notAProject => "invalid project file"
  | .unsupportedVersion n => Version.unsupportedMessage n

def ProjectError.message : ProjectError → String
  | .inaccessible path => "failed to access " ++ path
  | .faulty fault => fault.message
  | .noMainFile => "project has no main file"
  | .severalMainFiles first second =>
    "project has more than one main file: '" ++ first ++ "' and '" ++ second ++ "'"
  | .badFile path _ => "failed to read syntax tree " ++ path
  | .failed failure => failure.message

namespace Project

def load (files : Files) (path : String) : Except ProjectError Project :=
  match files.readText? path with
  | none => .error (.inaccessible path)
  | some text => (ofText (Path.parent path) text).mapError .faulty

/-- The one file marked as main. -/
def mainFile (p : Project) : Except ProjectError ProjectFile :=
  match p.files.filter (·.isMain) with
  | [] => .error .noMainFile
  | [file] => .ok file
  | first :: second :: _ => .error (.severalMainFiles first.name second.name)

/-- The statements that a file adds to the program. -/
def place (p : Project) (file : ProjectFile) (body : List Stmt) : List Stmt :=
  .sourceFile {} file.name ::
    if file.isMain then body else [.classDef {} ⟨.ident {} p.name, none, body, true⟩]

def readFile (p : Project) (files : Files) (file : ProjectFile) : Except ProjectError Program :=
  (files.readProgram (p.filePath file)).mapError (.badFile (p.filePath file))

/-- All files as one program, in the order of the list. -/
def link (p : Project) (files : Files) : Except ProjectError Program := do
  let _ ← p.mainFile
  let parts ← p.files.mapM fun file => do
    let program ← p.readFile files file
    pure (p.place file program.body)
  pure ⟨parts.flatten⟩

/-- Version and folders are the project's own. -/
def options (p : Project) (o : Options) : Options :=
  { o with version := p.version, projectFolder := some p.dir, includeFolder := some p.includeDir }

def compile (p : Project) (files : Files) (o : Options) : Except ProjectError Script := do
  let program ← p.link files
  (files.compile (p.options o) program p.sourceName).mapError .failed

/-- Writes the compiled script to its place. -/
def build (p : Project) (files : Files) (o : Options) : Except ProjectError Files := do
  let script ← p.compile files o
  let bytes ← script.bytes.mapError fun d => .failed (.defect d)
  match files.write? p.outputPath ⟨bytes.toArray⟩ with
  | some files => pure files
  | none => .error (.inaccessible p.outputPath)

end Project
end Adhoc
