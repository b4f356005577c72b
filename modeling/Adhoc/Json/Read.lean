import Adhoc.Json.Document

namespace Adhoc

/-- Why a text could not be read: it ends early, it is not JSON, or it is JSON of another shape. -/
inductive ReadError
  | early
  | malformed
  | misfit
deriving DecidableEq, Repr

def ReadError.ofFault : TextFault → ReadError
  | .early => .early
  | .malformed => .malformed

namespace Document

/-- What is wrong with a document that stands in the place of something else. -/
def mismatch : Document → ReadError
  | .broken b => .ofFault b.read
  | .valueless => .malformed
  | _ => .misfit

/-- Passes over a document. -/
def ignore (d : Document) : Except ReadError Unit :=
  match d.skip with
  | some fault => .error (.ofFault fault)
  | none => .ok ()

/-- The end of an array or an object. -/
def close : Option Break → Except ReadError Unit
  | some b => .error (.ofFault b.read)
  | none => .ok ()

def toValue (room : Nat) (d : Document) : Except ReadError Json :=
  match d.toJson room with
  | .ok j => .ok j
  | .error fault => .error (.ofFault fault)

/-- An integer between the bounds. -/
def readInt (low high : Int) : Document → Except ReadError Int
  | .number (.int i) => if low ≤ i && i ≤ high then .ok i else .error .misfit
  | d => .error d.mismatch

/-- The value of a whole text. -/
def readText {α : Type} (read : Document → Except ReadError α) (text : String) :
    Except ReadError α := do
  let (doc, rest) := parse text
  let value ← read doc
  if rest.isEmpty then pure value else throw .malformed

end Document
end Adhoc
