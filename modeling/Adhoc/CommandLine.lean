import Adhoc.CommandLine.Arguments
import Adhoc.HexDump
import Adhoc.Listing
import Adhoc.Project

namespace Adhoc.CommandLine

inductive Failed
  | unreadable (path : String)
  | notATree (path : String)
  | project (error : ProjectError)
  | compiling (failure : Failure)
  | unwritable (path : String)
  | unsupportedVersion (number : Nat)
deriving DecidableEq, Repr

/-- A fault of the compiler itself. -/
def defectStatus : Nat := 154

def failureStatus : Failure → Nat
  | .rejected _ => 3
  | .defect _ | .includesTooDeep => defectStatus

def projectStatus : ProjectError → Nat
  | .inaccessible _ => 1
  | .faulty .notAProject | .noMainFile | .severalMainFiles .. | .badFile .. => 2
  | .faulty (.unsupportedVersion _) => 5
  | .failed failure => failureStatus failure

namespace Failed

def status : Failed → Nat
  | .unreadable _ => 1
  | .notATree _ => 2
  | .project error => projectStatus error
  | .compiling failure => failureStatus failure
  | .unwritable _ => 4
  | .unsupportedVersion _ => 5

def message : Failed → String
  | .unreadable path => "failed to read '" ++ path ++ "'"
  | .notATree path => "failed to parse '" ++ path ++ "' as a syntax tree"
  | .project error => error.message
  | .compiling failure => failure.message
  | .unwritable path => "failed to write '" ++ path ++ "'"
  | .unsupportedVersion number => Version.unsupportedMessage number

end Failed

/-- What a run leaves behind. -/
structure Outcome where
  status : Nat
  out : String := ""
  err : String := ""
  /-- The path that was written to. -/
  written : Option String := none
  files : Files

def isProject (input : String) : Bool := Path.extension? input == some "toml"

def version (number : Nat) : Except Failed Version :=
  match Version.ofNat? number with
  | some v => .ok v
  | none => .error (.unsupportedVersion number)

/-- Included files are looked for in the folder of the input if no other is named. -/
def treeOptions (input : String) (o : Options) : Options :=
  { o with includeFolder := o.includeFolder.or (Path.parent? input) }

def compileTree (files : Files) (input : String) (o : Options) : Except Failed Script :=
  match files.readProgram input with
  | .error .unreadable => .error (.unreadable input)
  | .error (.notAProgram _) => .error (.notATree input)
  | .ok program => (files.compile (treeOptions input o) program input).mapError .compiling

def compileInput (files : Files) (input : String) (o : Options) : Except Failed Script :=
  if isProject input then do
    let project ← (Project.load files input).mapError .project
    (project.compile files o).mapError .project
  else compileTree files input o

def scriptBytes (script : Script) : Except Failed (List UInt8) :=
  script.bytes.mapError fun d => .compiling (.defect d)

/-- Where the script goes if no place is named. -/
def outputPath (files : Files) (input : String) : Except Failed String :=
  if isProject input then do
    let project ← (Project.load files input).mapError .project
    pure project.outputPath
  else pure (Path.withExtension input "adc")

def buildOptions (r : BuildRequest) (v : Version) : Options :=
  { version := v
    includeFolder := r.includeFolder
    debug := r.debug
    order := if r.bigEndian then .big else .little
    logsExceptions := r.logsExceptions }

/-- Writes the script. Gives the path, and the files with it. -/
def build (files : Files) (r : BuildRequest) : Except Failed (String × Files) := do
  let v ← version r.version
  let script ← compileInput files r.input (buildOptions r v)
  let output ← r.output.elim (outputPath files r.input) pure
  let bytes ← scriptBytes script
  match files.write? output ⟨bytes.toArray⟩ with
  | some files => pure (output, files)
  | none => .error (.unwritable output)

def symbolLine (s : Symbol) : String := padLeft 6 (toString s.id) ++ " " ++ quoted s.name

def lines (ls : List String) : String := String.join (ls.map (· ++ "\n"))

/-- A script in full: its code, its names and its bytes. -/
def dumpText (script : Script) (bytes : List UInt8) : String :=
  "instructions:\n" ++ script.frame.listing true ++
    "\nsymbols:\n" ++ lines (script.symbols.entries.toList.map symbolLine) ++
    "\nbytes:\n" ++ lines (hexDump bytes) ++
    "\ntotal size: " ++ toString bytes.length ++ "\n"

def dump (files : Files) (input : String) (number : Nat) : Except Failed String := do
  let v ← version number
  let script ← compileInput files input { version := v }
  let bytes ← scriptBytes script
  pure (dumpText script bytes)

/-- The name of the program with its release and a mark of the build. -/
def versionText (fingerprint : String) : String :=
  "adhoc 0.1.0 (fingerprint " ++ fingerprint ++ ")\n"

def helpText : String := lines
  ["Compiles Adhoc syntax trees into ADCH bytecode", "",
    "Usage: adhoc [OPTIONS] <COMMAND>", "",
    "Commands:",
    "  build    Compiles a syntax tree or project into bytecode",
    "  dump     Compiles a syntax tree or project and dumps its disassembly and bytes to stdout",
    "  version  Prints the compiler version and build fingerprint",
    "  help     Print this message or the help of the given subcommand(s)", "",
    "Options:",
    "      --verbose  Enables debug logging",
    "  -h, --help     Print help"]

def perform (files : Files) (fingerprint : String) : Command → Except Failed Outcome
  | .build request => do
    let (output, files) ← build files request
    pure { status := 0, written := some output, files := files }
  | .dump input number => do
    let text ← dump files input number
    pure { status := 0, out := text, files := files }
  | .version => pure { status := 0, out := versionText fingerprint, files := files }

def run (files : Files) (fingerprint : String) (args : List String) : Outcome :=
  match Command.ofArguments Version.latestCommon.number args with
  | .error .help => { status := 0, out := helpText, files := files }
  | .error .usage =>
    { status := 2, err := "For more information, try '--help'.\n", files := files }
  | .ok command =>
    match perform files fingerprint command with
    | .ok outcome => outcome
    | .error e => { status := e.status, err := e.message ++ "\n", files := files }

end Adhoc.CommandLine
