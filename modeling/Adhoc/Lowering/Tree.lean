import Adhoc.Lowering.Statement

namespace Adhoc

open Emit

mutual

def Expr.code (cx : Context) (e : Expr) : ExprCode :=
  match e with
  | .ident loc name =>
    { ExprCode.ofValue cx.version (.ident loc name) (identifier cx.version loc name) with
      place := pushName cx.version name loc false
      stored := pushName cx.version name loc false
      asStatic := fun outer => staticName cx.version outer name loc
      asAttribute := fun _ => attributeName cx.version name loc
      element := fun declares _ => do
        pushName cx.version name loc declares
        pure false
      param := nameParameter cx.version loc name }
  | .function loc r =>
    ExprCode.ofValue cx.version (.function loc r) (functionValue cx.version loc (r.code cx))
  | .method loc r =>
    let code := r.code cx
    ExprCode.ofValue cx.version (.method loc r) (closure cx.version loc code.params code.body true)
  | .arrow loc r =>
    let code := r.code cx
    ExprCode.ofValue cx.version (.arrow loc r) (closure cx.version loc code.params code.body false)
  | .call loc callee arguments =>
    let value := Emit.call cx.version loc (callee.code cx) (exprCodes cx arguments)
    { ExprCode.ofValue cx.version (.call loc callee arguments) value with place := value }
  | .unary loc op argument =>
    let code := argument.code cx
    let value := Emit.unary cx.version loc op code
    let whole := ExprCode.ofValue cx.version (.unary loc op argument) value
    match op with
    | .refer => { whole with referred := code.place, stored := storedThrough code }
    | .follow => { whole with stored := storedThrough code }
    | _ => whole
  | .update loc op before argument =>
    let code := argument.code cx
    { ExprCode.ofValue cx.version (.update loc op before argument) (do
        code.place
        updateOperator cx.version loc op before) with
      underRefer := do
        code.value
        updateOperator cx.version loc op before }
  | .binary loc op left right =>
    let value := Emit.binary cx.version loc op (left.code cx) (right.code cx)
    { ExprCode.ofValue cx.version (.binary loc op left right) value with place := value }
  | .logical loc op left right =>
    ExprCode.ofValue cx.version (.logical loc op left right)
      (Emit.logical cx.version loc op (left.code cx) (right.code cx))
  | .literal loc value =>
    let action := Emit.literal cx.version loc value
    { ExprCode.ofValue cx.version (.literal loc value) action with place := action }
  | .array loc elements =>
    ExprCode.ofValue cx.version (.array loc elements)
      (Emit.array cx.version loc (holeCodes cx elements))
  | .map loc entries =>
    ExprCode.ofValue cx.version (.map loc entries) (Emit.map cx.version loc (pairCodes cx entries))
  | .element loc object property optional =>
    let inner := object.code cx
    let index := property.code cx
    let place := elementMember cx.version .push loc inner index
    let value := if optional then optionalElement cx.version loc inner index
      else elementMember cx.version .eval loc inner index
    { ExprCode.ofValue cx.version (.element loc object property optional) value with
      place := place
      stored := place }
  | .path loc object property =>
    let parts := (Expr.path loc object property).pathParts
    let place := member cx.version .push parts loc
    { ExprCode.ofValue cx.version (.path loc object property) (member cx.version .eval parts loc) with
      place := place
      stored := place }
  | .attribute loc object property optional =>
    let inner := object.code cx
    let place := pushAttribute cx.version inner property
    { ExprCode.ofValue cx.version (.attribute loc object property optional)
        (attributeMember cx.version loc inner property optional) with
      place := place
      stored := place
      element := fun _ _ => do
        place
        pure false }
  | .selector loc object property =>
    let value := Emit.selector cx.version loc (object.code cx) (property.code cx)
    { ExprCode.ofValue cx.version (.selector loc object property) value with
      place := reject loc .unaryOnSelector
      stored := value }
  | .assign loc op left right =>
    let target := left.code cx
    let source := right.code cx
    let value := assignment cx.version loc op target source true
    { ExprCode.ofValue cx.version (.assign loc op left right) value with
      kept := assignment cx.version loc op target source false
      returned := do
        value
        target.value
      asStatic := fun outer => staticAssignment cx.version outer loc op target source
      asAttribute := fun outer => attributeAssignment cx.version outer target source
      param := assignedParameter cx.version loc target source }
  | .assignPattern loc left right =>
    { ExprCode.ofNothing cx.version (.assignPattern loc left right) with
      param := patternParameter cx.version loc (left.code cx) (right.code cx) }
  | .arrayPattern loc elements =>
    { ExprCode.ofNothing cx.version (.arrayPattern loc elements) with
      pattern? := some (Emit.arrayPattern cx.version loc (exprCodes cx elements)) }
  | .rest loc argument =>
    { ExprCode.ofNothing cx.version (.rest loc argument) with
      element := restElement cx.version loc argument
      param := restParameter cx.version loc argument }
  | .conditional loc test consequent alternate =>
    ExprCode.ofValue cx.version (.conditional loc test consequent alternate)
      (Emit.conditional cx.version (test.code cx) (consequent.code cx) (alternate.code cx))
  | .template loc quasis expressions =>
    let codes := exprCodes cx expressions
    { ExprCode.ofValue cx.version (.template loc quasis expressions)
        (Emit.template cx.version loc quasis codes) with
      part := templateParts cx.version quasis codes }
  | .tagged loc parts =>
    let codes := exprCodes cx parts
    { ExprCode.ofValue cx.version (.tagged loc parts) (Emit.tagged cx.version loc codes) with
      part := taggedParts codes }
  | .sequence loc expressions =>
    { ExprCode.ofNothing cx.version (.sequence loc expressions) with
      steps := (exprCodes cx expressions).forM fun c => c.step cx.version }
  | .staticDecl loc declaration =>
    ExprCode.ofValue cx.version (.staticDecl loc declaration) ((declaration.code cx).asStatic loc)
  | .attributeDecl loc declaration =>
    ExprCode.ofValue cx.version (.attributeDecl loc declaration)
      ((declaration.code cx).asAttribute loc)
  | .classDef loc definition =>
    let code := definition.code cx
    { ExprCode.ofValue cx.version (.classDef loc definition)
        (Emit.classDef cx.version loc code false) with
      asStatic := fun _ => staticClass cx.version loc code }
  | .importName loc specifiers target asName =>
    ExprCode.ofValue cx.version (.importName loc specifiers target asName)
      (Emit.importName cx.version loc specifiers target asName)
  | .yield loc => ExprCode.ofValue cx.version (.yield loc) (Emit.yield cx.version loc)
  | .await loc argument =>
    ExprCode.ofValue cx.version (.await loc argument) (Emit.await cx.version loc (argument.code cx))
  | .spread loc argument =>
    ExprCode.ofValue cx.version (.spread loc argument) (argument.code cx).value
  | .selfRef loc => ExprCode.ofValue cx.version (.selfRef loc) (selfValue cx.version loc)

def exprCodes (cx : Context) : List Expr → List ExprCode
  | [] => []
  | e :: rest => e.code cx :: exprCodes cx rest

def holeCode (cx : Context) : Option Expr → Option ExprCode
  | none => none
  | some e => some (e.code cx)

def holeCodes (cx : Context) : List (Option Expr) → List (Option ExprCode)
  | [] => []
  | e :: rest => holeCode cx e :: holeCodes cx rest

def pairCode (cx : Context) : Expr × Expr → ExprCode × ExprCode
  | (key, value) => (key.code cx, value.code cx)

def pairCodes (cx : Context) : List (Expr × Expr) → List (ExprCode × ExprCode)
  | [] => []
  | p :: rest => pairCode cx p :: pairCodes cx rest

def Routine.code (cx : Context) : Routine → RoutineCode
  | ⟨id, params, body⟩ => ⟨id, exprCodes cx params, body.code cx⟩

def ClassDef.code (cx : Context) : ClassDef → ClassCode
  | ⟨id, superClass, body, isModule⟩ => ⟨id, superClass, stmtCodes cx body, isModule⟩

def Node.code (cx : Context) : Node → NodeCode
  | .stmt s => .stmt (s.code cx)
  | .expr e => .expr (e.code cx)

def nodeHoleCode (cx : Context) : Option Node → Option NodeCode
  | none => none
  | some n => some (n.code cx)

def Declarator.code (cx : Context) : Declarator → DeclaratorCode
  | ⟨loc, id, init⟩ => ⟨loc, holeCode cx id, holeCode cx init⟩

def declaratorCodes (cx : Context) : List Declarator → List DeclaratorCode
  | [] => []
  | d :: rest => d.code cx :: declaratorCodes cx rest

def SwitchCase.code (cx : Context) : SwitchCase → CaseCode
  | ⟨loc, test, consequent⟩ => ⟨loc, holeCode cx test, stmtCodes cx consequent⟩

def caseCodes (cx : Context) : List SwitchCase → List CaseCode
  | [] => []
  | c :: rest => c.code cx :: caseCodes cx rest

def CatchClause.code (cx : Context) : CatchClause → CatchCode
  | ⟨loc, param, body⟩ => ⟨loc, param, body.code cx⟩

def clauseHoleCode (cx : Context) : Option CatchClause → Option CatchCode
  | none => none
  | some c => some (c.code cx)

def Stmt.code (cx : Context) (s : Stmt) : StmtCode :=
  match s with
  | .classDef loc definition =>
    .ofRun (.classDef loc definition) (Emit.classDef cx.version loc (definition.code cx) false)
  | .function loc r =>
    let code := r.code cx
    .ofRun (.function loc r)
      (if r.id.isSome then subroutine cx.version loc code false else pure ())
  | .method loc r => .ofRun (.method loc r) (subroutine cx.version loc (r.code cx) true)
  | .forLoop loc init test update body =>
    .ofLoop (.forLoop loc init test update body)
      (Emit.forLoop cx.version loc (nodeHoleCode cx init) (holeCode cx test) (holeCode cx update)
        (body.code cx))
  | .foreach loc left right body =>
    .ofLoop (.foreach loc left right body)
      (Emit.foreach cx.version loc (left.code cx) (right.code cx) (body.code cx))
  | .whileLoop loc test body =>
    .ofLoop (.whileLoop loc test body)
      (Emit.whileLoop cx.version (test.code cx) (body.code cx))
  | .doWhile loc body test =>
    .ofLoop (.doWhile loc body test) (Emit.doWhile cx.version (body.code cx) (test.code cx))
  | .declare loc declarations =>
    let declares := Emit.declare cx.version (declaratorCodes cx declarations)
    { StmtCode.ofRun (.declare loc declarations) (declares false) with
      declares? := some declares }
  | .returnValue loc argument =>
    .ofRun (.returnValue loc argument) (Emit.returnValue cx.version (holeCode cx argument))
  | .importName loc specifiers target asName =>
    .ofRun (.importName loc specifiers target asName)
      (Emit.importName cx.version loc specifiers target asName)
  | .ifElse loc test consequent alternate =>
    .ofRun (.ifElse loc test consequent alternate)
      (Emit.ifElse cx.version (test.code cx) (consequent.code cx) (stmtHoleCode cx alternate))
  | .block loc stmts =>
    let inside := Emit.body cx.version cx.logsExceptions (stmtCodes cx stmts)
    { StmtCode.ofRun (.block loc stmts) (Emit.block cx.version stmts.isEmpty inside) with
      block? := some inside }
  | .expression loc value =>
    .ofRun (.expression loc value) (expressionStatement cx.version (value.code cx))
  | .switch loc discriminant cases =>
    .ofRun (.switch loc discriminant cases)
      (Emit.switch cx.version loc (discriminant.code cx) (caseCodes cx cases))
  | .continueLoop loc label =>
    .ofRun (.continueLoop loc label) (Emit.continueLoop cx.version loc label)
  | .breakOut loc label => .ofRun (.breakOut loc label) (Emit.breakOut cx.version loc label)
  | .labeled loc label body =>
    .ofRun (.labeled loc label body) (Emit.labeled loc label (body.code cx))
  | .includeFile loc path => .ofRun (.includeFile loc path) (includeFile cx loc path)
  | .require loc argument =>
    .ofRun (.require loc argument) (do
      (argument.code cx).value
      emit cx.version (.simple .require) loc.line)
  | .throw loc argument =>
    .ofRun (.throw loc argument) (do
      (argument.code cx).value
      emit cx.version (.simple .throw) loc.line)
  | .finalizer loc body =>
    .ofRun (.finalizer loc body) (Emit.finalizer cx.version loc (body.code cx))
  | .tryCatch loc block handler finalizer =>
    .ofRun (.tryCatch loc block handler finalizer)
      (Emit.tryCatch cx.version loc (block.code cx) (clauseHoleCode cx handler)
        (stmtHoleCode cx finalizer))
  | .undef loc name => .ofRun (.undef loc name) (Emit.undef cx.version loc name)
  | .sourceFile loc path => .ofRun (.sourceFile loc path) (Emit.sourceFile cx.version path)
  | .moduleConstructor loc id body =>
    .ofRun (.moduleConstructor loc id body)
      (Emit.moduleConstructor cx.version (id.code cx) (body.code cx))
  | .print loc arguments =>
    .ofRun (.print loc arguments) (Emit.print cx.version loc (exprCodes cx arguments))
  | .delegate loc id => .ofRun (.delegate loc id) (Emit.delegate cx.version loc id)
  | .empty loc => .ofRun (.empty loc) (pure ())

def stmtCodes (cx : Context) : List Stmt → List StmtCode
  | [] => []
  | s :: rest => s.code cx :: stmtCodes cx rest

def stmtHoleCode (cx : Context) : Option Stmt → Option StmtCode
  | none => none
  | some s => some (s.code cx)

end

end Adhoc
