import Adhoc.Lowering.Constant

namespace Adhoc.Emit

/-- `a[b]` as a value or as a target. -/
def elementMember (v : Version) (reach : Reach) (loc : Loc) (object property : ExprCode) :
    Emit Unit := do
  object.value
  property.value
  if v.has .elementEval then
    emit v (.simple (match reach with
      | .push => .elementPush
      | .eval => .elementEval)) 0
  else
    let symbol ← operatorSymbol (v.has .internalBinaryOperatorNames) "[]"
    emit v (.named .binary symbol) loc.line
    if reach == .eval then emit v (.simple .eval) 0

/-- `a?[b]` -/
def optionalElement (v : Version) (loc : Loc) (object property : ExprCode) : Emit Unit := do
  require (v.has .optionalChaining) loc .optionalElementUnsupported
  object.value
  emit v (.simple .logicalOptional) loc.line
  property.value
  emit v (.simple .elementEval) 0
  warn .optional

def attributeNames (property : Expr) : Emit (List Symbol) :=
  match property with
  | .ident _ name => do
    let symbol ← symbol name
    pure [symbol]
  | .path .. => pathSymbols ("::".intercalate property.pathParts)
  | _ => reject property.loc .invalidAttribute

/-- `a.b` or `a?.b` as a value. -/
def attributeMember (v : Version) (loc : Loc) (object : ExprCode) (property : Expr)
    (optional : Bool) : Emit Unit := do
  require (!optional || v.has .optionalChaining) loc .optionalAttributeUnsupported
  object.value
  if optional then
    emit v (.simple .logicalOptional) loc.line
    warn .optional
  let names ← attributeNames property
  emit v (.pathed .attributeEval names) property.loc.line

/-- `a.b` as a target. -/
def pushAttribute (v : Version) (object : ExprCode) (property : Expr) : Emit Unit := do
  object.value
  match property.ident? with
  | none => reject property.loc .attributePropertyNotName
  | some name =>
    let symbol ← symbol name
    emit v (.pathed .attributePush [symbol]) property.loc.line

/-- `a.(b)` -/
def selector (v : Version) (loc : Loc) (object property : ExprCode) : Emit Unit := do
  object.value
  property.value
  emit v (.simple .objectSelector) loc.line

def selfValue (v : Version) (loc : Loc) : Emit Unit := do
  require (v.has .selfVariable) loc .selfUnsupported
  let symbol ← symbol "self"
  emit v (.variable .eval [symbol] 0) loc.line

/-- Operations around a call whose operands are pushed. -/
def afterCall (v : Version) (loc : Loc) : Emit Unit :=
  if v.has .evalOnCall then emit v (.simple .eval) loc.line else pure ()

/-- `call(f, arguments)`, with the arguments in an array. -/
def variadicCall (v : Version) (loc : Loc) (arguments : List ExprCode) : Emit Unit := do
  require (!arguments.isEmpty) loc .variadicWithoutTarget
  require (2 ≤ arguments.length) loc .variadicWithoutArguments
  pushAll arguments
  emit v (.counted .vaCall arguments.length) loc.line
  warn .variadicCall

def plainCall (v : Version) (loc : Loc) (callee : ExprCode) (arguments : List ExprCode) :
    Emit Unit := do
  callee.value
  arguments.forM (·.passed)
  emit v (.counted .call arguments.length) loc.line

def call (v : Version) (loc : Loc) (callee : ExprCode) (arguments : List ExprCode) :
    Emit Unit := do
  if callee.name? == some "call" then variadicCall v loc arguments
  else plainCall v loc callee arguments
  afterCall v loc

/-- `a instanceof b` is the call `a.isInstanceOf(b)`. -/
def instanceOf (v : Version) (loc : Loc) (right : ExprCode) : Emit Unit := do
  let method ← symbol "isInstanceOf"
  emit v (.pathed .attributeEval [method]) loc.line
  right.value
  emit v (.counted .call 1) loc.line

def binary (v : Version) (loc : Loc) (op : BinaryOp) (left right : ExprCode) : Emit Unit := do
  left.kept
  match op.symbol? with
  | some text =>
    right.value
    let symbol ← operatorSymbol (v.has .internalBinaryOperatorNames) text
    emit v (.named .binary symbol) loc.line
  | none => instanceOf v loc right

def logicalJump (v : Version) : LogicalOp → Jump
  | .or => if v.has .newLogicalInstructions then .or else .orOld
  | .and | .coalesce => if v.has .newLogicalInstructions then .and else .andOld

def coalesce (v : Version) (loc : Loc) (left right : ExprCode) : Emit Unit := do
  require (v.has .nullCoalescing) loc .coalesceUnsupported
  left.kept
  let jump ← jump v .ifNil loc.line
  right.value
  patchHere jump
  warn .coalesce

def logical (v : Version) (loc : Loc) (op : LogicalOp) (left right : ExprCode) : Emit Unit :=
  if op == .coalesce then coalesce v loc left right
  else do
    left.kept
    let jump ← jump v (logicalJump v op) loc.line
    if !v.has .newLogicalInstructions then pop v
    right.value
    patchHere jump

def unary (v : Version) (loc : Loc) (op : UnaryOp) (argument : ExprCode) : Emit Unit :=
  match op.symbol? with
  | some text => do
    argument.value
    let symbol ← operatorSymbol (v.has .internalOperatorNames) text
    emit v (.named .unary symbol) loc.line
  | none =>
    if op == .follow then do
      argument.value
      if v.has .indirectionEval then emit v (.simple .eval) 0
    else argument.underRefer

/-- `++` or `--` on what is on the stack. -/
def updateOperator (v : Version) (loc : Loc) (op : UpdateOp) (before : Bool) : Emit Unit := do
  let symbol ← operatorSymbol (v.has .internalOperatorNames) (op.symbol before)
  emit v (.named .unaryAssign symbol) loc.line

/-- `test ? consequent : alternate` -/
def conditional (v : Version) (test consequent alternate : ExprCode) : Emit Unit := do
  test.value
  let toAlternate ← jump v .ifFalse test.loc.line
  consequent.referred
  let toEnd ← jump v .always 0
  -- Only one of the two branches leaves a value when the code runs.
  if v.has .ternaryPop then pop v else onFrame (Draft.dropDepth 1)
  patchHere toAlternate
  alternate.value
  patchHere toEnd

def plainAssignment (v : Version) (left right : ExprCode) (drops : Bool) : Emit Unit :=
  if v.has .valueBeforePush then do
    right.kept
    left.store v drops
  else do
    left.target
    right.referred
    assignAnd v drops

def assignment (v : Version) (loc : Loc) (op : AssignOp) (left right : ExprCode) (drops : Bool) :
    Emit Unit :=
  if op == .assign then plainAssignment v left right drops
  else do
    require op.symbol?.isSome loc (.assignmentOperator op.text)
    left.target
    right.kept
    binaryAssign v op loc
    if drops then pop v

/-- The operand of `*` or `&` as a target. -/
def storedThrough (argument : ExprCode) : Emit Unit :=
  match argument.expr with
  | .ident .. | .attribute .. | .path .. | .element .. => argument.value
  | _ => reject argument.loc (.assignmentTarget argument.kind)

/-- The elements of a pattern. The result says whether the last takes the rest. -/
def patternElements (declares : Bool) : List ExprCode → Emit Bool
  | [] => pure false
  | [e] => e.element declares true
  | e :: rest => do
    discard (e.element declares false)
    patternElements declares rest

def arrayPattern (v : Version) (loc : Loc) (elements : List ExprCode) (declares : Bool) :
    Emit Unit := do
  require (!elements.isEmpty) loc .emptyPattern
  let hasRest ← patternElements declares elements
  if v.has .newListAssign then
    emit v (.listAssign elements.length hasRest) loc.line
    pop v

/-- `...x` as an element of a pattern. -/
def restElement (v : Version) (loc : Loc) (argument : Expr) (declares isLast : Bool) :
    Emit Bool := do
  require isLast loc .patternElement
  require (v.has .restElements) loc .restUnsupported
  match argument.ident? with
  | none => reject argument.loc .patternElement
  | some name =>
    pushName v name argument.loc declares
    pure true

end Adhoc.Emit
