import Adhoc.Opcode

namespace Adhoc

/-- Misuse of a frame: a step that no well-formed emission takes. Unlike a rejected program, a defect
names no source position. -/
inductive Defect
  | scopeUnderflow
  | noOpenScope
  | notAJump (index : Nat)
  | noLocalSlot (name : String)
  | noEncoding (op : Opcode)
  | noEffect (op : Opcode)
  | notWritable (op : Opcode)
  | unpatchedJump (index : Nat)
  | noSource
  | namelessAttribute
  | pushOverflow
  | popOverflow
deriving DecidableEq, Repr

def Defect.message : Defect → String
  | .scopeUnderflow => "scope stack underflow"
  | .noOpenScope => "no open scope"
  | .notAJump index => s!"instruction {index} is not a jump"
  | .noLocalSlot name => s!"local '{name}' has no slot"
  | .noEncoding op => "opcode " ++ op.name ++ " has no known encoding"
  | .noEffect op => "no stack effect is known for " ++ op.name
  | .notWritable op => op.name ++ " cannot be serialized"
  | .unpatchedJump index => s!"jump at instruction {index} was never patched"
  | .noSource => "frame has no source file symbol"
  | .namelessAttribute => "attribute push without a name"
  | .pushOverflow => "attempt to add with overflow"
  | .popOverflow => "attempt to subtract with overflow"

end Adhoc
