import Adhoc.Lowering.Emit

namespace Adhoc.Emit

def pop (v : Version) : Emit Unit :=
  emit v (.simple (if v.has .newPop then .pop else .popOld)) 0

/-- Assigns and keeps the value. -/
def assign (v : Version) : Emit Unit :=
  emit v (.simple (if v.has .newAssign then .assign else .assignOld)) 0

def assignPop (v : Version) : Emit Unit :=
  if v.has .assignPop then emit v (.simple .assignPop) 0
  else do
    assign v
    pop v

/-- Assigns and keeps the value only if it is asked for. -/
def assignAnd (v : Version) (drops : Bool) : Emit Unit := if drops then assignPop v else assign v

def stateOperation (v : Version) (state : RunState) : Operation :=
  if v.has .newSetState then .setState state else .setStateOld state

def setState (v : Version) (state : RunState) : Emit Unit := emit v (stateOperation v state) 0

/-- Hands the value on top of the stack to the caller. -/
def handOff (v : Version) (state : RunState) : Emit Unit := do
  emitUntracked (stateOperation v state) 0
  onFrame (Draft.dropDepth 1)

/-- A return whose value, if any, is gone already. -/
def bareReturn (v : Version) : Emit Unit := emitUntracked (stateOperation v .return) 0

def void (v : Version) : Emit Unit :=
  emit v (.simple (if v.has .voidInsteadOfNop then .voidConst else .nop)) 0

def emptyReturn (v : Version) : Emit Unit :=
  if v.has .voidForEmptyReturn then do
    void v
    handOff v .return
  else bareReturn v

/-- Ends a subroutine that has no `return` of its own at the top. -/
def frameExit (v : Version) : Emit Unit := do
  let f ← frame
  if f.returnsAtTop then pure () else emptyReturn v

def binaryAssign (v : Version) (op : AssignOp) (loc : Loc) : Emit Unit :=
  match op.symbol? with
  | none => reject loc (.assignmentOperator op.text)
  | some text => do
    let symbol ← operatorSymbol (v.has .internalOperatorNames) text
    if v.has .binaryAssign then emit v (.named .binaryAssign symbol) loc.line
    else
      emit v (.named .binary symbol) loc.line
      assign v

/-- A static is written with its name twice. -/
def accessNames (symbol : Symbol) : Emit (List Symbol) := do
  let f ← frame
  pure (if f.isStatic symbol then [symbol, symbol] else [symbol])

def access (v : Version) (reach : Reach) (symbol : Symbol) (use : Access) (line : UInt32) :
    Emit Unit := do
  let index ← onFrame (Draft.resolve symbol use)
  let names ← accessNames symbol
  emit v (.variable reach names index) line

/-- Reads a variable. -/
def readName (v : Version) (name : String) (loc : Loc) : Emit Unit := do
  let symbol ← symbol name
  access v .eval symbol .read loc.line

/-- Pushes a variable as the target of an assignment. -/
def pushName (v : Version) (name : String) (loc : Loc) (declares : Bool) : Emit Unit := do
  let symbol ← symbol name
  access v .push symbol (if declares then .declare else .write) loc.line

/-- Makes room for a local without any code. -/
def declareName (name : String) : Emit Unit := do
  let symbol ← symbol name
  discard (onFrame (Draft.resolve symbol .declare))

def readTemporary (v : Version) (symbol : Symbol) (line : UInt32) : Emit Unit := do
  let index ← onFrame (Draft.localIndex symbol)
  emit v (.variable .eval [symbol] index) line

/-- A new temporary that is assigned the given value, or what is on the stack. -/
def newTemporary (v : Version) (value : Emit Unit) (stem : String) (loc : Loc) : Emit Symbol := do
  let symbol ← temporary stem
  if v.has .valueBeforePush then
    value
    pushName v symbol.name loc true
  else
    pushName v symbol.name loc true
    value
  assignPop v
  pure symbol

/-- The member `a::b::c`, always a static. -/
def member (v : Version) (reach : Reach) (parts : List String) (loc : Loc) : Emit Unit := do
  let (parts, full) ← splitPath ("::".intercalate parts)
  let index ← onFrame (Draft.resolve full .readStatic)
  emit v (.variable reach (parts ++ [full]) index) loc.line

def freeAll (free : Slots → Symbol → Slots) (symbols : List Symbol) : Emit Unit := modify fun s =>
  { s with frame := { s.frame with slots := symbols.foldl free s.frame.slots } }

/-- Closes a scope and frees its locals. -/
def leaveScope (v : Version) (leaves : Bool) : Emit Unit := do
  let scope ← onFrame Draft.popScope
  if v.has .freesOnLeave then freeAll Slots.freeLocal scope.locals
  if leaves && v.has .leave then
    let f ← frame
    emit v (.leave 0 f.slots.rewindIndex) 0

/-- Closes the scope of a class or module and frees its statics. -/
def leaveModuleScope (v : Version) : Emit Unit := do
  let scope ← onFrame Draft.popScope
  if v.has .freesOnLeave then freeAll Slots.freeStatic scope.statics
  if v.has .leave then
    let s ← get
    emit v (.leave (s.modules.depth - 1 : Nat)
      (if s.frame.isRoot then 1 else s.frame.slots.rewindIndex)) 0

end Adhoc.Emit
