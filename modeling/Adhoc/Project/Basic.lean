import Adhoc.Path
import Adhoc.Toml.Reader
import Adhoc.Version

namespace Adhoc

structure ProjectFile where
  name : String
  isMain : Bool
deriving DecidableEq, Repr

/-- What a project's file says. -/
structure Manifest where
  name : String
  outputName : String
  versionNumber : Nat
  folder : Option String
  includeFolder : Option String
  files : List ProjectFile
deriving DecidableEq, Repr

/-- A project: several files that make one script. Paths in it are seen from the folder of the file that
lists them. -/
structure Project extends Manifest where
  /-- The folder of the project's own file. -/
  root : String
  supported : 1 ≤ versionNumber ∧ versionNumber ≤ 13

/-- Why the text of a project is refused. -/
inductive ProjectFault
  | notAProject
  | unsupportedVersion (number : Nat)
deriving DecidableEq, Repr

namespace Toml.Table

/-- What stands under a key, `none` if there is nothing; fails if it cannot be read. -/
def given? {α : Type} (t : Table) (key : String) (read : Value → Option α) : Option (Option α) :=
  match t.lookup key with
  | none => some none
  | some v => (read v).map some

def required? {α : Type} (t : Table) (key : String) (read : Value → Option α) : Option α :=
  (t.lookup key).bind read

end Toml.Table

open Toml

/-- A file is a table, or an array with the name first and the mark of the main file next. -/
def ProjectFile.ofValue? : Value → Option ProjectFile
  | .table _ t => do
    let name ← Table.required? t "name" Value.string?
    let isMain ← Table.given? t "is_main" Value.boolean?
    pure ⟨name, isMain.getD false⟩
  | .array (name :: rest) => do
    let name ← name.string?
    let isMain ← rest.head?.elim (some false) Value.boolean?
    pure ⟨name, isMain⟩
  | _ => none

namespace Manifest

/-- A number of eight bits. -/
def versionNumber? (v : Value) : Option Nat :=
  v.integer?.bind fun i => if 0 ≤ i && i ≤ 255 then some i.toNat else none

def files? (v : Value) : Option (List ProjectFile) := do
  let items ← v.items?
  items.mapM ProjectFile.ofValue?

/-- Keys without a meaning are ignored. -/
def ofTable? (t : Table) : Option Manifest := do
  let name ← Table.required? t "project_name" Value.string?
  let outputName ← Table.required? t "output_name" Value.string?
  let number ← Table.given? t "version" versionNumber?
  let folder ← Table.given? t "project_folder" Value.string?
  let includeFolder ← Table.given? t "base_include_folder" Value.string?
  let files ← Table.given? t "files" files?
  pure ⟨name, outputName, number.getD Version.latestCommon.number, folder, includeFolder,
    files.getD []⟩

def ofText? (text : String) : Option Manifest := (Table.ofText? text).bind ofTable?

end Manifest

namespace Project

def ofManifest (root : String) (m : Manifest) : Except ProjectFault Project :=
  if h : 1 ≤ m.versionNumber ∧ m.versionNumber ≤ 13 then
    .ok { m with root := root, supported := h }
  else .error (.unsupportedVersion m.versionNumber)

def ofText (root text : String) : Except ProjectFault Project :=
  match Manifest.ofText? text with
  | some m => ofManifest root m
  | none => .error .notAProject

def version (p : Project) : Version := ⟨p.versionNumber, p.supported⟩

/-- A path in the project's file, seen from outside. -/
def path (p : Project) (relative : String) : String := Path.join p.root relative

/-- Where the listed files are, and the output goes. -/
def dir (p : Project) : String := p.folder.elim p.root p.path

def outputPath (p : Project) : String := Path.join p.dir (p.outputName ++ ".adc")

/-- Where included files are looked for. -/
def includeDir (p : Project) : String := p.includeFolder.elim p.dir p.path

def sourceName (p : Project) : String := p.outputName ++ ".ad"

def filePath (p : Project) (file : ProjectFile) : String := Path.join p.dir file.name

end Project
end Adhoc
