import Adhoc.Symbol

namespace Adhoc

inductive ScopeKind
  | block
  /-- A class or module body. -/
  | module
  | loop (label : Option String)
  | switch
deriving DecidableEq, Repr

namespace ScopeKind

def isLoop : ScopeKind → Bool
  | .loop _ => true
  | _ => false

/-- Whether a plain `break` may leave the scope. -/
def takesBreak : ScopeKind → Bool
  | .loop _ | .switch => true
  | _ => false

def label? : ScopeKind → Option String
  | .loop label => label
  | _ => none

end ScopeKind

/-- A scope remembers the variables that were declared while it was open. A loop or a switch also
remembers the jumps that leave it or go round again, whose targets come later. -/
structure Scope where
  kind : ScopeKind
  locals : List Symbol := []
  statics : List Symbol := []
  breaks : List Nat := []
  continues : List Nat := []
deriving DecidableEq, Repr

namespace Scope

/-- Appends what is not there yet. -/
def note (symbol : Symbol) (symbols : List Symbol) : List Symbol :=
  if symbols.contains symbol then symbols else symbols ++ [symbol]

def addLocal (s : Scope) (symbol : Symbol) : Scope := { s with locals := note symbol s.locals }

def addStatic (s : Scope) (symbol : Symbol) : Scope := { s with statics := note symbol s.statics }

def hasStatic (s : Scope) (symbol : Symbol) : Bool := s.statics.contains symbol

/-- Notes a jump that leaves the scope, if the scope can be left by `break`. -/
def addBreak (s : Scope) (jump : Nat) : Bool × Scope :=
  if s.kind.takesBreak then (true, { s with breaks := s.breaks ++ [jump] }) else (false, s)

/-- Notes a jump that goes round again, if the scope is a loop. -/
def addContinue (s : Scope) (jump : Nat) : Bool × Scope :=
  if s.kind.isLoop then (true, { s with continues := s.continues ++ [jump] }) else (false, s)

def takeBreaks (s : Scope) : List Nat × Scope := (s.breaks, { s with breaks := [] })

def takeContinues (s : Scope) : List Nat × Scope := (s.continues, { s with continues := [] })

end Scope
end Adhoc
