import Adhoc.Container.Writer
import Adhoc.Lowering.Tree

namespace Adhoc

structure Options where
  version : Version := .latestCommon
  /-- Where included files are looked for; the folder of the source if it is not given. -/
  includeFolder : Option String := none
  /-- Where they are looked for next. -/
  projectFolder : Option String := none
  debug : Bool := true
  order : ByteOrder := .little
  /-- Whether the script and every block run under a handler that logs exceptions. -/
  logsExceptions : Bool := false

def Options.format (o : Options) : Format := ⟨o.version, o.order, o.debug⟩

/-- A compiled script. -/
structure Script where
  format : Format
  frame : Frame
  symbols : SymbolTable
  /-- In the order of reports, each at most once. -/
  warnings : List Warning

namespace Script

/-- The bytes of the script's container. -/
def bytes (s : Script) : Except Defect (List UInt8) := s.format.script s.symbols s.frame

end Script

/-- Code that follows includes to the given depth. -/
def Context.atDepth (cx : Context) : Nat → Context
  | 0 => { cx with follow := fun _ _ => .error .includesTooDeep }
  | depth + 1 => { cx with follow := fun stmts => runAll (stmtCodes (cx.atDepth depth) stmts) }

def Options.context (o : Options) (sources : Sources) (depth : Nat) : Context :=
  Context.atDepth
    { version := o.version
      logsExceptions := o.logsExceptions
      projectFolder := o.projectFolder
      sources := sources
      follow := fun _ => pure () } depth

/-- The state before the first instruction: the name of the source is the first symbol. -/
def Session.start (o : Options) (source : String) : Session :=
  let (symbol, symbols) := SymbolTable.internName {} source
  { symbols := symbols
    includeFolder := o.includeFolder
    frame := Draft.start o.version (some symbol) }

namespace Program

def code (cx : Context) (p : Program) : Emit Unit := do
  Emit.pushScope .block
  Emit.body cx.version cx.logsExceptions (stmtCodes cx p.body)
  Emit.leaveScope cx.version true
  Emit.setState cx.version .exit

/-- Compiles a program. Files may include each other to the given depth. -/
def compile (o : Options) (sources : Sources) (depth : Nat) (p : Program) (source : String) :
    Except Failure Script := do
  let ((), s) ← p.code (o.context sources depth) (Session.start o source)
  pure
    { format := o.format
      frame := s.frame.finish
      symbols := s.symbols
      warnings := Warning.all.filter s.warnings.contains }

end Program
end Adhoc
