namespace Adhoc

inductive UnaryOp
  | not
  | minus
  | plus
  | invert
  /-- `*x`, which follows a reference. -/
  | follow
  /-- `&x`, which takes a reference. -/
  | refer
deriving DecidableEq, Repr

namespace UnaryOp

def text : UnaryOp → String
  | .not => "!"
  | .minus => "-"
  | .plus => "+"
  | .invert => "~"
  | .follow => "*"
  | .refer => "&"

def all : List UnaryOp := [.not, .minus, .plus, .invert, .follow, .refer]

def ofText? (s : String) : Option UnaryOp := all.find? fun op => op.text == s

/-- The operator's name in bytecode, for the operators that compute a value. -/
def symbol? : UnaryOp → Option String
  | .not => some "!"
  | .minus => some "-@"
  | .plus => some "+@"
  | .invert => some "~"
  | .follow | .refer => none

end UnaryOp

inductive UpdateOp
  | increment
  | decrement
deriving DecidableEq, Repr

namespace UpdateOp

def text : UpdateOp → String
  | .increment => "++"
  | .decrement => "--"

def ofText? : String → Option UpdateOp
  | "++" => some .increment
  | "--" => some .decrement
  | _ => none

/-- The name in bytecode of the operator written before or after its operand. -/
def symbol (op : UpdateOp) (before : Bool) : String :=
  if before then op.text ++ "@" else "@" ++ op.text

end UpdateOp

inductive BinaryOp
  | equal
  | notEqual
  | less
  | greater
  | lessOrEqual
  | greaterOrEqual
  | add
  | subtract
  | divide
  | multiply
  | modulo
  | bitOr
  | bitXor
  | bitAnd
  | leftShift
  | rightShift
  | power
  | instanceOf
deriving DecidableEq, Repr

namespace BinaryOp

def text : BinaryOp → String
  | .equal => "=="
  | .notEqual => "!="
  | .less => "<"
  | .greater => ">"
  | .lessOrEqual => "<="
  | .greaterOrEqual => ">="
  | .add => "+"
  | .subtract => "-"
  | .divide => "/"
  | .multiply => "*"
  | .modulo => "%"
  | .bitOr => "|"
  | .bitXor => "^"
  | .bitAnd => "&"
  | .leftShift => "<<"
  | .rightShift => ">>"
  | .power => "**"
  | .instanceOf => "instanceof"

def all : List BinaryOp := [.equal, .notEqual, .less, .greater, .lessOrEqual, .greaterOrEqual,
  .add, .subtract, .divide, .multiply, .modulo, .bitOr, .bitXor, .bitAnd, .leftShift, .rightShift,
  .power, .instanceOf]

def ofText? (s : String) : Option BinaryOp := all.find? fun op => op.text == s

/-- The operator's name in bytecode; `instanceof` is a method call instead. -/
def symbol? : BinaryOp → Option String
  | .instanceOf => none
  | op => some op.text

end BinaryOp

inductive LogicalOp
  | and
  | or
  /-- `a ?? b` -/
  | coalesce
deriving DecidableEq, Repr

namespace LogicalOp

def text : LogicalOp → String
  | .and => "&&"
  | .or => "||"
  | .coalesce => "??"

def ofText? : String → Option LogicalOp
  | "&&" => some .and
  | "||" => some .or
  | "??" => some .coalesce
  | _ => none

end LogicalOp

inductive AssignOp
  | assign
  | add
  | subtract
  | multiply
  | divide
  | modulo
  | bitAnd
  | bitOr
  | bitXor
  | power
  | rightShift
  | leftShift
  | unsignedRightShift
  | coalesce
deriving DecidableEq, Repr

namespace AssignOp

/-- The name in bytecode of the operator that a compound assignment applies. -/
def symbol? : AssignOp → Option String
  | .add => some "+"
  | .subtract => some "-"
  | .multiply => some "*"
  | .divide => some "/"
  | .modulo => some "%"
  | .bitAnd => some "&"
  | .bitOr => some "|"
  | .bitXor => some "^"
  | .power => some "**"
  | .rightShift => some ">>"
  | .leftShift => some "<<"
  | .assign | .unsignedRightShift | .coalesce => none

def text : AssignOp → String
  | .assign => "="
  | .add => "+="
  | .subtract => "-="
  | .multiply => "*="
  | .divide => "/="
  | .modulo => "%="
  | .bitAnd => "&="
  | .bitOr => "|="
  | .bitXor => "^="
  | .power => "**="
  | .rightShift => ">>="
  | .leftShift => "<<="
  | .unsignedRightShift => ">>>="
  | .coalesce => "??="

def all : List AssignOp := [.assign, .add, .subtract, .multiply, .divide, .modulo, .bitAnd, .bitOr,
  .bitXor, .power, .rightShift, .leftShift, .unsignedRightShift, .coalesce]

def ofText? (s : String) : Option AssignOp := all.find? fun op => op.text == s

end AssignOp
end Adhoc
