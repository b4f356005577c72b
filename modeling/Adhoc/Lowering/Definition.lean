import Adhoc.Lowering.Operation

namespace Adhoc.Emit

/-- Gives a defined name a static slot. -/
def addMember (symbol : Symbol) : Emit Unit := onFrame (Draft.addMember symbol)

/-- `static x`; `loc` is that of the keyword. -/
def staticName (v : Version) (loc : Loc) (name : String) (nameLoc : Loc) : Emit Unit := do
  let symbol ← symbol name
  emit v (.named .staticDefine symbol) loc.line
  let isNew ← define .static symbol
  require isNew nameLoc (.staticDefined symbol.name)
  addMember symbol

/-- The assignment after the name of a static has been defined. -/
def staticValue (v : Version) (declarationLoc : Loc) (name : String) (op : AssignOp)
    (left right : ExprCode) : Emit Unit :=
  if op == .assign then
    if v.has .valueBeforePush then do
      right.value
      left.store v true
    else do
      pushName v name left.loc false
      right.value
      assignPop v
  else do
    require op.symbol?.isSome declarationLoc (.assignmentOperator op.text)
    pushName v name left.loc false
    right.value
    binaryAssign v op declarationLoc
    pop v

/-- `static x = value`. The name may be defined already. -/
def staticAssignment (v : Version) (loc declarationLoc : Loc) (op : AssignOp)
    (left right : ExprCode) : Emit Unit :=
  match left.name? with
  | none => reject left.loc .staticNotName
  | some name => do
    let symbol ← symbol name
    emit v (.named .staticDefine symbol) loc.line
    discard (define .static symbol)
    addMember symbol
    staticValue v declarationLoc name op left right

/-- Defines an attribute whose value is on the stack. -/
def defineAttribute (v : Version) (name : String) (loc : Loc) : Emit Unit := do
  let symbol ← symbol name
  emit v (.named .attributeDefine symbol) loc.line
  let isNew ← define .attribute symbol
  require isNew loc .attributeDefined
  addMember symbol

def attributeName (v : Version) (name : String) (nameLoc : Loc) : Emit Unit := do
  emit v (.simple .nilConst) nameLoc.line
  defineAttribute v name nameLoc

def attributeAssignment (v : Version) (loc : Loc) (left right : ExprCode) : Emit Unit := do
  require (v.has .attributeDefaults) loc .attributeDefaultUnsupported
  match left.name? with
  | none => reject left.loc .attributeNotName
  | some name =>
    right.value
    defineAttribute v name left.loc

def delegate (v : Version) (loc : Loc) (id : Expr) : Emit Unit := do
  require (v.has .delegates) loc .delegateUnsupported
  match id.ident? with
  | none => reject id.loc (.unsupportedExpression id.kind)
  | some name =>
    let symbol ← symbol name
    emit v (.named .delegateDefine symbol) loc.line
    let isNew ← define .static symbol
    require isNew id.loc (.delegateDefined symbol.name)
    addMember symbol
    warn .delegate

def specifierName (specifier : Expr) : Emit String :=
  match specifier.pathName? with
  | some name => pure name
  | none => reject specifier.loc .emptyImport

/-- The symbols that an import makes static: the target, or every member of the module. -/
def importedSymbols (full : String) (target : Symbol) (wildcard : Bool) :
    Emit (List (Option Symbol)) := do
  let s ← get
  pure (if wildcard then
      match s.modules.named? full with
      | some m => m.members.map some
      | none => [none]
    else [some target])

def importName (v : Version) (loc : Loc) (specifiers : List Expr) (target : String)
    (asName : Option String) : Emit Unit := do
  require (!specifiers.isEmpty) loc .emptyImport
  require (!(target == "*" && asName.isSome)) loc .aliasedWildcard
  let parts ← specifiers.mapM specifierName
  let full := "::".intercalate parts
  let path ← parts.mapM symbol
  let fullSymbol ← symbol full
  let targetSymbol ← symbol target
  let asSymbol ← symbol (asName.getD "nil")
  let imported ← importedSymbols full targetSymbol (target == "*")
  onFrame (Draft.addStatics imported)
  emit v (.importName (path ++ [fullSymbol]) targetSymbol asSymbol) loc.line

def isPath (name : String) : Bool :=
  match name.splitOn "::" with
  | _ :: _ :: _ => true
  | _ => false

/-- The path of a module. A plain name stands twice if the module is static. -/
def modulePath (name : String) (isStatic : Bool) : Emit (List Symbol) := do
  let (parts, full) ← splitPath name
  pure (if isPath name || isStatic then parts ++ [full] else parts)

def baseClass (v : Version) (superClass : Option Expr) : Emit (List Symbol) :=
  match superClass with
  | some base =>
    match base.pathName? with
    | none => reject base.loc .invalidClassName
    | some name =>
      if isPath name then pathSymbols name
      else do
        let symbol ← symbol name
        pure [symbol]
  | none =>
    if v.has .systemObjectRoot then pathSymbols "System::Object"
    else do
      let symbol ← symbol "Object"
      pure [symbol]

def enterModule (name : String) : Emit Unit := modify fun s =>
  { s with modules := (s.modules.enter name).2 }

def leaveModule : Emit Unit := modify fun s => { s with modules := s.modules.leave }

/-- The instruction that opens a class or module. -/
def openClass (v : Version) (loc : Loc) (c : ClassCode) (name : String) (isStatic : Bool) :
    Emit Unit :=
  if c.isModule then do
    let path ← modulePath name isStatic
    emit v (.pathed .moduleDefine path) loc.line
  else do
    let symbol ← symbol name
    let bases ← baseClass v c.superClass
    emit v (.classDefine symbol bases) loc.line

def classDef (v : Version) (loc : Loc) (c : ClassCode) (isStatic : Bool) : Emit Unit :=
  match c.id.pathName? with
  | none => reject c.id.loc .invalidClassName
  | some name => do
    require (c.isModule || !isPath name) c.id.loc .classNameIsPath
    pushScope .module
    enterModule name
    openClass v loc c name isStatic
    runAll c.body
    leaveModuleScope v
    leaveModule
    setState v .exit

/-- `static module M { }` -/
def staticClass (v : Version) (loc : Loc) (c : ClassCode) : Emit Unit :=
  if c.isModule then classDef v loc c true else reject loc .staticClass

def declareParameter (name : String) (child : Draft) : Emit Draft := do
  let symbol ← symbol name
  let ((), child) ← onDraft child (Draft.addParameter symbol)
  pure child

/-- A parameter without a default. -/
def nameParameter (v : Version) (loc : Loc) (name : String) (child : Draft) : Emit Draft := do
  let child ← declareParameter name child
  emit v (.simple .nilConst) loc.line
  pure child

def isLiteral : Expr → Bool
  | .literal .. => true
  | _ => false

/-- Whether the expression may be the default of a parameter. -/
def isDefault : Expr → Bool
  | .unary _ _ argument => isLiteral argument
  | .literal .. | .ident .. | .element .. | .path .. | .attribute .. | .selector .. | .array ..
  | .map .. => true
  | _ => false

/-- A parameter `x = 0`. -/
def assignedParameter (v : Version) (loc : Loc) (left right : ExprCode) (child : Draft) :
    Emit Draft := do
  require (v.has .parameterDefaults) loc .parameterDefaultUnsupported
  require (isLiteral right.expr) loc .parameterAssignment
  match left.name? with
  | none => reject loc .parameterAssignment
  | some name =>
    let child ← declareParameter name child
    right.value
    pure child

/-- A parameter with a default given as a pattern. -/
def patternParameter (v : Version) (loc : Loc) (left right : ExprCode) (child : Draft) :
    Emit Draft := do
  require (v.has .parameterDefaults) loc .parameterDefaultUnsupported
  require (isDefault right.expr) right.loc .parameterDefault
  match left.name? with
  | none => reject left.loc .invalidParameter
  | some name =>
    let child ← declareParameter name child
    right.value
    pure child

/-- A parameter `...x`. -/
def restParameter (v : Version) (loc : Loc) (argument : Expr) (child : Draft) : Emit Draft := do
  require (v.has .restElements) loc .restUnsupported
  match argument.ident? with
  | none => reject argument.loc .invalidParameter
  | some name =>
    let child ← declareParameter name child
    emit v (.simple .nilConst) loc.line
    pure { child with hasRest := true }

def parameters : List ExprCode → Draft → Emit Draft
  | [], child => pure child
  | p :: rest, child => do
    let child ← p.param child
    parameters rest child

/-- A new frame with an open scope for the subroutine's own variables. -/
def newChild (v : Version) (captures : Bool) : Emit Draft := do
  let f ← frame
  let ((), child) ← onDraft (f.child v captures) (Draft.pushScope .block)
  pure child

def NodeCode.blockBody : NodeCode → Emit (Emit Unit)
  | .stmt c =>
    match c.block? with
    | some body => pure body
    | none => reject c.loc .subroutineBodyNotBlock
  | .expr c => reject c.loc .subroutineBodyNotBlock

/-- Very old methods have a slot without a name after their parameters. -/
def reserveSlot (v : Version) (isMethod : Bool) (child : Draft) : Draft :=
  if isMethod && v.has .reservedLocalInFrame then
    { child with slots := (child.slots.addLocal none).2 }
  else child

/-- A function or method with a name. -/
def subroutine (v : Version) (loc : Loc) (r : RoutineCode) (isMethod : Bool) : Emit Unit :=
  match r.id.bind Expr.ident? with
  | none => reject loc .subroutineWithoutName
  | some name => do
    let symbol ← symbol name
    let child ← newChild v false
    if isMethod then
      let isNew ← define .method symbol
      require isNew loc (.methodDefined symbol.name)
    let child ← parameters r.params child
    let child := reserveSlot v isMethod child
    let scope ← onFrame Draft.scope
    require (!scope.hasStatic symbol) loc (.subroutineDefined symbol.name)
    addMember symbol
    let body ← NodeCode.blockBody r.body
    let child ← within child do
      body
      leaveScope v false
      frameExit v
    emit v (.subroutine (some symbol) child.finish isMethod) loc.line

/-- The body of a closure. -/
def closureBody (v : Version) : NodeCode → Emit Unit
  | .stmt c => do
    c.run
    frameExit v
  | .expr c => do
    c.value
    handOff v .return

/-- A function or method without a name. What it captures is pushed before it. -/
def closure (v : Version) (loc : Loc) (params : List ExprCode) (body : NodeCode) (isMethod : Bool) :
    Emit Unit := do
  let child ← newChild v true
  let child ← parameters params child
  let child ← within child do
    closureBody v body
    leaveScope v false
  child.captured.forM fun symbol => readName v symbol.name loc
  emit v (.subroutine none child.finish isMethod) loc.line

/-- A function expression: a definition if it has a name. -/
def functionValue (v : Version) (loc : Loc) (r : RoutineCode) : Emit Unit :=
  if r.id.isSome then subroutine v loc r false else closure v loc r.params r.body false

/-- A call is awaited in a closure of its own. -/
def awaitedTask (v : Version) (argument : ExprCode) : Emit Unit :=
  match argument.expr with
  | .call .. => closure v argument.loc [] (.expr argument) false
  | _ => argument.value

def await (v : Version) (loc : Loc) (argument : ExprCode) : Emit Unit := do
  member v .eval ["System", "AwaitTaskStart"] loc
  awaitedTask v argument
  emit v (.counted .call 1) loc.line
  let task ← temporary "task"
  pushName v task.name loc true
  emit v (.simple .assignPop) loc.line
  member v .eval ["System", "AwaitTaskResult"] loc
  readTemporary v task loc.line
  emit v (.counted .call 1) loc.line
  warn .await

def yield (v : Version) (loc : Loc) : Emit Unit := do
  emit v (.simple .voidConst) loc.line
  handOff v .yield

end Adhoc.Emit
