import Adhoc.Lowering.Definition

namespace Adhoc.Emit

/-- Whether the expression leaves a value. -/
def leavesValue : Expr → Bool
  | .assign .. | .staticDecl .. | .attributeDecl .. | .yield .. | .classDef .. | .importName .. =>
    false
  | .function _ r => r.id.isNone
  | _ => true

/-- A value that is left over is taken off the stack. -/
def expressionStatement (v : Version) (c : ExprCode) : Emit Unit := do
  c.value
  if leavesValue c.expr then pop v

def ifElse (v : Version) (test : ExprCode) (consequent : StmtCode) (alternate : Option StmtCode) :
    Emit Unit := do
  pushScope .block
  test.kept
  let toAlternate ← jump v .ifFalse 0
  consequent.inScope v
  match alternate with
  | some alternate =>
    let toEnd ← jump v .always 0
    patchHere toAlternate
    alternate.inScope v
    patchHere toEnd
  | none =>
    if v.has .alternateJumpAlways then
      let toEnd ← jump v .always 0
      patchHere toEnd
    patchHere toAlternate
  leaveScope v false

/-- The jump out of a loop whose condition fails, if it has one. -/
def loopTest (v : Version) (test : Option ExprCode) : Emit (Option Nat) :=
  match test with
  | none => pure none
  | some test => do
    test.kept
    let exit ← jump v .ifFalse 0
    pure (some exit)

/-- Ends a loop or switch: all jumps out of it go here. -/
def endLoop (v : Version) (exits : Option Nat) : Emit Unit := do
  let exit ← here
  patchAll exits.toList exit
  let breaks ← takeBreaks
  patchAll breaks exit
  leaveScope v true

def forInit : Option NodeCode → Emit Unit
  | none => pure ()
  | some (.stmt c) =>
    match c.declares? with
    | some declares => declares false
    | none => reject c.loc .forInit
  | some (.expr c) =>
    match c.expr with
    | .assign .. | .ident .. => c.value
    | _ => reject c.loc .forInit

def forLoop (v : Version) (loc : Loc) (init : Option NodeCode) (test update : Option ExprCode)
    (body : StmtCode) (label : Option String) : Emit Unit := do
  pushScope (.loop label)
  forInit init
  let start ← here
  let exit ← loopTest v test
  body.run
  let updateStart ← here
  let continues ← takeContinues
  patchAll continues updateStart
  match update with
  | none => pure ()
  | some update => update.steps
  jumpTo v start loc.line
  endLoop v exit

def isTrue : Expr → Bool
  | .literal _ (.bool true) => true
  | _ => false

/-- A loop with the condition `true` has no test. -/
def whileLoop (v : Version) (test : ExprCode) (body : StmtCode) (label : Option String) :
    Emit Unit := do
  pushScope (.loop label)
  let start ← here
  let exit ← loopTest v (if isTrue test.expr then none else some test)
  body.inScope v
  let back ← add v (.jump .always (some start)) 0
  let continues ← takeContinues
  patchAll continues back
  endLoop v exit

def doWhile (v : Version) (body : StmtCode) (test : ExprCode) (label : Option String) :
    Emit Unit := do
  pushScope (.loop label)
  let start ← here
  body.inScope v
  let testStart ← here
  test.kept
  let continues ← takeContinues
  patchAll continues testStart
  let exit ← jump v .ifFalse 0
  jumpTo v start 0
  endLoop v (some exit)

def foreachLeft : NodeCode → Emit Unit
  | .stmt c =>
    match c.declares? with
    | some declares => declares true
    | none => reject c.loc .foreachLeft
  | .expr c =>
    match c.pattern? with
    | some pattern => pattern false
    | none => reject c.loc .foreachLeft

def foreach (v : Version) (loc : Loc) (left : NodeCode) (right : ExprCode) (body : StmtCode)
    (label : Option String) : Emit Unit := do
  require (v.has .foreach) loc .foreachUnsupported
  pushScope (.loop label)
  right.value
  let iterator ← symbol "iterator"
  emit v (.pathed .attributeEval [iterator]) right.loc.line
  let items ← newTemporary v (pure ()) "in" loc
  let test ← here
  readTemporary v items loc.line
  let fetchNext ← symbol "fetch_next"
  emit v (.pathed .attributeEval [fetchNext]) loc.line
  let exit ← jump v .ifFalse loc.line
  readTemporary v items loc.line
  emit v (.simple .eval) loc.line
  foreachLeft left
  body.inScope v
  let next ← here
  let continues ← takeContinues
  patchAll continues next
  jumpTo v test 0
  endLoop v (some exit)

/-- The tests of a switch. Gives the jump of each case, `none` for the default case, whose line
comes with it. -/
def caseTests (v : Version) (subject equals : Symbol) :
    Option UInt32 → List CaseCode → Emit (List (Option Nat) × Option UInt32)
  | dflt, [] => pure ([], dflt)
  | dflt, c :: rest =>
    match c.test with
    | some test => do
      readTemporary v subject c.loc.line
      test.value
      emit v (.named .binary equals) c.loc.line
      let jump ← jump v .ifTrue c.loc.line
      let (jumps, dflt) ← caseTests v subject equals dflt rest
      pure (some jump :: jumps, dflt)
    | none => do
      require dflt.isNone c.loc .secondDefault
      let (jumps, dflt) ← caseTests v subject equals (some c.loc.line) rest
      pure (none :: jumps, dflt)

/-- The bodies of a switch; each is the target of its case's jump. -/
def caseBodies (toDefault : Nat) : List CaseCode → List (Option Nat) → Emit Unit
  | c :: cases, jump :: jumps => do
    patchHere (jump.getD toDefault)
    runAll c.consequent
    caseBodies toDefault cases jumps
  | _, _ => pure ()

def switch (v : Version) (loc : Loc) (discriminant : ExprCode) (cases : List CaseCode) :
    Emit Unit := do
  pushScope .switch
  let subject ← newTemporary v discriminant.value "case" loc
  let equals ← operatorSymbol (v.has .internalBinaryOperatorNames) "=="
  let (jumps, dflt) ← caseTests v subject equals none cases
  let toDefault ← jump v .always (dflt.getD 0)
  caseBodies toDefault cases jumps
  endLoop v (if dflt.isSome then none else some toDefault)

def continueLoop (v : Version) (loc : Loc) (label : Option String) : Emit Unit := do
  let f ← frame
  require (f.canContinue label) loc
    (match label with
      | some label => .undefinedLabel label
      | none => .continueOutsideLoop)
  let jump ← jump v .always loc.line
  discard (onFrame (Draft.noteContinue label jump))

/-- A `break` carries no line. -/
def breakOut (v : Version) (loc : Loc) (label : Option String) : Emit Unit := do
  let f ← frame
  require (f.canBreak label) loc
    (match label with
      | some label => .undefinedLabel label
      | none => .breakOutsideLoop)
  let jump ← jump v .always 0
  discard (onFrame (Draft.noteBreak label jump))

def labeled (loc : Loc) (label : String) (body : StmtCode) : Emit Unit := do
  let f ← frame
  require (!f.canContinue (some label)) loc (.labelInScope label)
  match body.loop? with
  | some loop => loop (some label)
  | none => reject loc (.labelNotOnLoop label)

def returnedValue (v : Version) (argument : ExprCode) : Emit Unit := do
  argument.returned
  if v.has .popOnValueReturn then
    pop v
    bareReturn v
    bareReturn v
  else handOff v .return

def returnValue (v : Version) (argument : Option ExprCode) : Emit Unit := do
  match argument with
  | some argument => returnedValue v argument
  | none => emptyReturn v
  modify fun s => if s.frame.atTop then { s with frame := { s.frame with returnsAtTop := true } } else s

end Adhoc.Emit
