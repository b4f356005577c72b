import Adhoc.Compile
import Adhoc.Files.Basic
import Adhoc.Tree.Text

namespace Adhoc

/-- Why there is no program in a file. -/
inductive FileError
  | unreadable
  | notAProgram (error : ReadError)
deriving DecidableEq, Repr

namespace Files

def readProgram (files : Files) (path : String) : Except FileError Program :=
  match files.readText? path with
  | none => .error .unreadable
  | some text =>
    match Program.ofText text with
    | .ok p => .ok p
    | .error e => .error (.notAProgram e)

def sources (files : Files) : Sources where
  exists_ := files.contains
  read? path := (files.readProgram path).toOption

/-- Compiles a program that includes these files. No chain of includes without a repetition is
longer than their number. -/
def compile (files : Files) (o : Options) (p : Program) (source : String) :
    Except Failure Script :=
  p.compile o files.sources (files.entries.length + 1) source

end Files
end Adhoc
