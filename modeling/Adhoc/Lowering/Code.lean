import Adhoc.Lowering.Choice

namespace Adhoc

open Emit

/-- An expression emits different code in different places: as a value, as the target of an assignment,
as a parameter and so on. There is an action for each place. -/
structure ExprCode where
  expr : Expr
  /-- Pushes the value. An assignment is the exception: it leaves nothing. -/
  value : Emit Unit
  /-- Pushes the value, also that of an assignment. -/
  kept : Emit Unit
  /-- As a value where `&x` pushes `x` itself. -/
  referred : Emit Unit
  /-- As the operand of `&` in a plain value. -/
  underRefer : Emit Unit
  /-- As the operand of `++`, `--` and `&`. -/
  place : Emit Unit
  /-- As the target of an assignment whose value is on the stack. -/
  stored : Emit Unit
  returned : Emit Unit
  /-- As the update of a `for` loop. -/
  steps : Emit Unit
  /-- After `static`, which stands at the given position. -/
  asStatic : Loc → Emit Unit
  /-- After `attribute`, which stands at the given position. -/
  asAttribute : Loc → Emit Unit
  /-- As an element of an array pattern; the flags say whether the pattern declares its names and
  whether this is the last element. The result says whether it takes the rest. -/
  element : Bool → Bool → Emit Bool
  /-- As a pattern, which may declare its names. -/
  pattern? : Option (Bool → Emit Unit)
  /-- As a parameter of the given frame. -/
  param : Draft → Emit Draft
  /-- As a part of a composed string. Gives the number of pushed values. -/
  part : Emit Nat

namespace ExprCode

def loc (c : ExprCode) : Loc := c.expr.loc

def kind (c : ExprCode) : String := c.expr.kind

def name? (c : ExprCode) : Option String := c.expr.ident?

/-- One update of a `for` loop. -/
def stepOf (v : Version) (expr : Expr) (value : Emit Unit) : Emit Unit :=
  match expr with
  | .update .. | .call .. => do
    value
    pop v
  | .assign .. => value
  | _ => reject expr.loc .notAStatement

/-- The code of an expression that is good for its value only. -/
def ofValue (v : Version) (expr : Expr) (value : Emit Unit) : ExprCode where
  expr := expr
  value := value
  kept := value
  referred := value
  underRefer := value
  place := reject expr.loc (.unaryOperand expr.kind)
  stored := reject expr.loc (.assignmentTarget expr.kind)
  returned := value
  steps := stepOf v expr value
  asStatic _ := reject expr.loc .staticNotAssignment
  asAttribute _ := reject expr.loc .attributeNotAssignment
  element _ _ := reject expr.loc .patternElement
  pattern? := none
  param _ := reject expr.loc .invalidParameter
  part := reject expr.loc (.unsupportedExpression expr.kind)

/-- The code of an expression that is not good even for a value. -/
def ofNothing (v : Version) (expr : Expr) : ExprCode :=
  ofValue v expr (reject expr.loc (.unsupportedExpression expr.kind))

/-- One of several updates of a `for` loop. -/
def step (v : Version) (c : ExprCode) : Emit Unit := stepOf v c.expr c.value

/-- Pushes the target of an assignment whose value comes later. -/
def target (c : ExprCode) : Emit Unit :=
  match c.expr with
  | .unary _ .refer _ => c.value
  | .ident .. | .attribute .. | .element .. | .path .. => c.place
  | _ => reject c.loc (.assignmentTarget c.kind)

/-- Assigns the value on the stack. -/
def store (v : Version) (c : ExprCode) (drops : Bool) : Emit Unit :=
  match c.pattern? with
  | some pattern => pattern false
  | none => do
    c.stored
    assignAnd v drops

/-- The initial value of a variable. -/
def declared (c : ExprCode) : Emit Unit :=
  match c.expr with
  | .unary _ .refer _ => c.referred
  | _ => c.kept

/-- An argument of a call. -/
def passed (c : ExprCode) : Emit Unit :=
  match c.expr with
  | .spread .. => reject c.loc .spreadArgument
  | _ => c.referred

end ExprCode

structure StmtCode where
  stmt : Stmt
  run : Emit Unit
  /-- The statements of a block, without its scope. -/
  block? : Option (Emit Unit)
  /-- A loop, which may have a label. -/
  loop? : Option (Option String → Emit Unit)
  /-- A declaration of variables, which may take their values from the stack. -/
  declares? : Option (Bool → Emit Unit)

namespace StmtCode

def loc (c : StmtCode) : Loc := c.stmt.loc

/-- The code of a statement that is neither a block nor a loop nor a declaration. -/
def ofRun (stmt : Stmt) (run : Emit Unit) : StmtCode where
  stmt := stmt
  run := run
  block? := none
  loop? := none
  declares? := none

def ofLoop (stmt : Stmt) (loop : Option String → Emit Unit) : StmtCode :=
  { ofRun stmt (loop none) with loop? := some loop }

/-- Runs in a scope of its own. -/
def inScope (v : Version) (c : StmtCode) : Emit Unit :=
  match c.stmt with
  | .block .. | .continueLoop .. | .breakOut .. => c.run
  | _ => do
    pushScope .block
    c.run
    leaveScope v true

end StmtCode

inductive NodeCode
  | stmt (code : StmtCode)
  | expr (code : ExprCode)

structure RoutineCode where
  id : Option Expr
  params : List ExprCode
  body : NodeCode

structure ClassCode where
  id : Expr
  superClass : Option Expr
  body : List StmtCode
  isModule : Bool

structure DeclaratorCode where
  loc : Loc
  id : Option ExprCode
  init : Option ExprCode

structure CaseCode where
  loc : Loc
  test : Option ExprCode
  consequent : List StmtCode

structure CatchCode where
  loc : Loc
  param : Option Expr
  body : StmtCode

def runAll (stmts : List StmtCode) : Emit Unit := stmts.forM (·.run)

def pushAll (values : List ExprCode) : Emit Unit := values.forM (·.value)

end Adhoc
