import Adhoc.Lowering.Control

namespace Adhoc.Emit

/-- Binds the thrown value, which is on the stack when a handler starts. -/
def bindThrown (v : Version) (name : String) (nameLoc : Loc) (line : UInt32) : Emit Unit := do
  emit v (.constant (.int 0)) line
  pushName v name nameLoc true
  emit v (.simple .assign) line
  let temporary ← temporary "catch"
  pushName v temporary.name { line := line } true
  assignPop v

def ignoreThrown (v : Version) (line : UInt32) : Emit Unit := do
  emit v (.constant (.int 0)) line
  emit v (.simple .pop) line

def catchParameter (v : Version) (line : UInt32) : Option Expr → Emit Unit
  | none => ignoreThrown v line
  | some param =>
    match param.ident? with
    | none => reject param.loc .catchParameterNotName
    | some name => bindThrown v name param.loc line

def catchClause (v : Version) (c : CatchCode) : Emit Unit := do
  require c.body.block?.isSome c.body.loc .catchNotBlock
  catchParameter v c.loc.line c.param
  c.body.run

def tryCatch (v : Version) (loc : Loc) (block : StmtCode) (handler : Option CatchCode)
    (finalizer : Option StmtCode) : Emit Unit := do
  let toHandler ← jump v .tryCatch loc.line
  require block.block?.isSome block.loc .tryNotBlock
  block.run
  setState v .exit
  patchHere toHandler
  match handler with
  | none => pure ()
  | some handler =>
    let toEnd ← jump v .always 0
    catchClause v handler
    patchHere toEnd
  match finalizer with
  | none => pure ()
  | some finalizer =>
    require finalizer.block?.isSome finalizer.loc .catchNotBlock
    finalizer.run

/-- A finalizer is a function without name and parameters. -/
def checkFinalizer (body : Expr) : Emit Unit :=
  match body with
  | .function loc r => do
    require r.id.isNone loc .finalizerHasName
    require r.params.isEmpty loc .finalizerHasParameters
  | .arrow loc r => require r.params.isEmpty loc .finalizerLambdaHasParameters
  | _ => reject body.loc .finalizerNotFunction

def finalizer (v : Version) (loc : Loc) (body : ExprCode) : Emit Unit := do
  checkFinalizer body.expr
  body.value
  let temporary ← temporary "fin"
  pushName v temporary.name loc true
  let finally_ ← symbol "finally"
  emit v (.pathed .attributePush [finally_]) loc.line
  assignPop v

/-- The variable that holds a logged exception. -/
def exceptionName : String := "__ex"

/-- Appends the exception to a log on the device, and throws it again. -/
def logException (v : Version) : Emit Unit := do
  member v .eval ["__toplevel__", "main", "pdistd", "AppendFile"] {}
  text v {} "/APP_DATA_RAW/exceptions.txt" false
  text v {} ("%\x7b" ++ exceptionName ++ "\x7d\n") false
  emit v (.counted .call 2) 0
  afterCall v {}
  pop v
  readName v exceptionName {}
  emit v (.simple .throw) 0

/-- The statements of a script or a block, under a handler that logs exceptions if asked for. -/
def body (v : Version) (logs : Bool) (stmts : List StmtCode) : Emit Unit :=
  if !logs then runAll stmts
  else do
    let toHandler ← jump v .tryCatch 0
    runAll stmts
    setState v .exit
    patchHere toHandler
    let toEnd ← jump v .always 0
    bindThrown v exceptionName {} 0
    logException v
    patchHere toEnd

/-- A block in a scope of its own. -/
def block (v : Version) (isEmpty : Bool) (body : Emit Unit) : Emit Unit := do
  pushScope .block
  body
  leaveScope v !isEmpty

end Adhoc.Emit
