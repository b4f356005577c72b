import Adhoc.Frame.Draft
import Adhoc.ModuleTree
import Adhoc.Rejection

namespace Adhoc

/-- The state of an emission. -/
structure Session where
  symbols : SymbolTable := {}
  modules : ModuleTree := {}
  /-- What has been warned of, the latest first. -/
  warnings : List Warning := []
  /-- The folder that included files are looked for in, once it is known. -/
  includeFolder : Option String := none
  frame : Draft

inductive Failure
  | rejected (rejection : Rejection)
  | defect (defect : Defect)
  /-- Included files include each other beyond the given depth. -/
  | includesTooDeep
deriving DecidableEq, Repr

def Failure.message : Failure → String
  | .rejected r => r.message
  | .defect d => d.message
  | .includesTooDeep => "included files include each other"

abbrev Emit := StateT Session (Except Failure)

/-- The name under which errors in the frame are reported. -/
def Draft.sourceName (d : Draft) : String :=
  match d.source with
  | some s => s.name
  | none => "<unknown>"

namespace Emit

/-- A step on the frame at hand. -/
def onFrame {α : Type} (step : Drafting α) : Emit α := fun s =>
  match step s.frame with
  | .ok (a, frame) => .ok (a, { s with frame := frame })
  | .error d => .error (.defect d)

/-- A step on another frame. -/
def onDraft {α : Type} (draft : Draft) (step : Drafting α) : Emit (α × Draft) := fun s =>
  match step draft with
  | .ok result => .ok (result, s)
  | .error d => .error (.defect d)

def frame : Emit Draft := fun s => .ok (s.frame, s)

def reject {α : Type} (loc : Loc) (cause : Cause) : Emit α := fun s =>
  .error (.rejected ⟨cause, s.frame.sourceName, loc⟩)

/-- Rejects unless the condition holds. -/
def require (condition : Bool) (loc : Loc) (cause : Cause) : Emit Unit :=
  if condition then pure () else reject loc cause

def warn (w : Warning) : Emit Unit := modify fun s =>
  if s.warnings.contains w then s else { s with warnings := w :: s.warnings }

/-- Emits into `child`, then goes on with the frame at hand. Gives the child as it is then. -/
def within (child : Draft) (body : Emit Unit) : Emit Draft := fun s =>
  match body { s with frame := child } with
  | .ok ((), t) => .ok (t.frame, { t with frame := s.frame })
  | .error e => .error e

def interned (step : SymbolTable → Symbol × SymbolTable) : Emit Symbol := fun s =>
  let (symbol, symbols) := step s.symbols
  .ok (symbol, { s with symbols := symbols })

/-- An identifier; the name of an operator stands for the operator's method. -/
def symbol (name : String) : Emit Symbol := interned (·.internCanonical name)

def plainSymbol (name : String) : Emit Symbol := interned (·.internName name)

def stringSymbol (content : String) (bytePerChar : Bool) : Emit Symbol :=
  interned (·.intern content bytePerChar)

/-- An operator, by its method's name where the version has one. -/
def operatorSymbol (internal : Bool) (text : String) : Emit Symbol :=
  if internal then symbol text else plainSymbol text

/-- A new temporary. -/
def temporary (stem : String) : Emit Symbol := fun s =>
  let (name, symbols) := s.symbols.nextTemporary stem
  plainSymbol name { s with symbols := symbols }

/-- The symbols of the parts of a name `a::b::c`, and of the whole. A plain name is its own part. -/
def splitPath (name : String) : Emit (List Symbol × Symbol) := do
  let full ← symbol name
  match name.splitOn "::" with
  | first :: second :: rest =>
    let parts ← (first :: second :: rest).mapM symbol
    pure (parts, full)
  | _ => pure ([full], full)

/-- The symbols of a path operand: each part, then the whole. -/
def pathSymbols (name : String) : Emit (List Symbol) := do
  let (parts, full) ← splitPath name
  pure (parts ++ [full])

/-- Defines a member of the current module and says whether it is new. -/
def define (kind : MemberKind) (symbol : Symbol) : Emit Bool := fun s =>
  let (isNew, modules) := s.modules.define kind symbol
  .ok (isNew, { s with modules := modules })

/-- Appends an instruction and gives its index. -/
def add (v : Version) (op : Operation) (line : UInt32) : Emit Nat := onFrame (Draft.add v op line)

def emit (v : Version) (op : Operation) (line : UInt32) : Emit Unit := discard (add v op line)

/-- Appends an instruction without its stack effect. -/
def emitUntracked (op : Operation) (line : UInt32) : Emit Unit :=
  discard (onFrame (Draft.append op line))

/-- The index of the next instruction. -/
def here : Emit Nat := fun s => .ok (s.frame.code.size, s)

def patch (jump target : Nat) : Emit Unit := onFrame (Draft.patch jump target)

def patchHere (jump : Nat) : Emit Unit := do
  let target ← here
  patch jump target

def patchAll (jumps : List Nat) (target : Nat) : Emit Unit := jumps.forM fun jump => patch jump target

/-- Appends a jump whose target comes later. -/
def jump (v : Version) (kind : Jump) (line : UInt32) : Emit Nat := add v (.jump kind none) line

def jumpTo (v : Version) (target : Nat) (line : UInt32) : Emit Unit :=
  emit v (.jump .always (some target)) line

def takeBreaks : Emit (List Nat) := onFrame (Draft.updateScope Scope.takeBreaks)

def takeContinues : Emit (List Nat) := onFrame (Draft.updateScope Scope.takeContinues)

def pushScope (kind : ScopeKind) : Emit Unit := onFrame (Draft.pushScope kind)

end Emit
end Adhoc
