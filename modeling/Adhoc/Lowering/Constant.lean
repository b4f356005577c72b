import Adhoc.Lowering.Code

namespace Adhoc.Emit

/-- A constant that the version must have. -/
def gatedConstant (v : Version) (c : Capability) (loc : Loc) (what : String) (value : Constant) :
    Emit Unit := do
  require (v.has c) loc (.literalUnsupported what c.span.1)
  emit v (.constant value) loc.line

/-- A string; an empty one is composed of nothing where the version can do that. -/
def text (v : Version) (loc : Loc) (content : String) (hexEscaped : Bool) : Emit Unit :=
  if content.isEmpty && v.has .stringPushForEmptyString then
    emit v (.counted .stringPush 0) loc.line
  else do
    let symbol ← stringSymbol content hexEscaped
    emit v (.named .stringConst symbol) loc.line

def literal (v : Version) (loc : Loc) : Literal → Emit Unit
  | .nil => emit v (.simple .nilConst) loc.line
  | .bool b =>
    emit v (.constant (if v.has .extendedConstants then .bool b else .int (if b then 1 else 0)))
      loc.line
  | .int i => emit v (.constant (.int i)) loc.line
  | .float bits => emit v (.constant (.float bits)) loc.line
  | .long i => emit v (.constant (.long i)) loc.line
  | .uint n => gatedConstant v .extendedConstants loc "Unsigned integer" (.uint n)
  | .ulong n => gatedConstant v .extendedConstants loc "Unsigned long" (.ulong n)
  | .double bits => gatedConstant v .extendedConstants loc "Double" (.double bits)
  | .byte i => gatedConstant v .smallIntConstants loc "Byte" (.byte i)
  | .ubyte n => gatedConstant v .smallIntConstants loc "Unsigned byte" (.ubyte n)
  | .short i => gatedConstant v .smallIntConstants loc "Short" (.short i)
  | .ushort n => gatedConstant v .smallIntConstants loc "Unsigned short" (.ushort n)
  | .symbol name => do
    let symbol ← symbol name
    emit v (.named .symbolConst symbol) loc.line
  | .string content => text v loc content false

/-- An identifier as a value. Two names stand for their place in the source. -/
def identifier (v : Version) (loc : Loc) (name : String) : Emit Unit :=
  match name with
  | "__LINE__" =>
    emit v (.constant (if v.has .extendedConstants then .uint loc.line else .int loc.line.toInt32))
      loc.line
  | "__FILE__" => do
    let f ← frame
    let file ← match f.source with
      | some file => pure file
      | none => stringSymbol "" false
    emit v (.named .stringConst file) loc.line
  | _ => readName v name loc

/-- Quasis with the expressions between them. Gives the number of pushed values. -/
def templateParts (v : Version) : List Quasi → List ExprCode → Emit Nat
  | [], _ => pure 0
  | q :: quasis, expressions => do
    let symbol ← stringSymbol q.text q.hexEscaped
    emit v (.named .stringConst symbol) q.loc.line
    match expressions with
    | [] =>
      let n ← templateParts v quasis []
      pure (1 + n)
    | e :: expressions =>
      e.value
      let n ← templateParts v quasis expressions
      pure (2 + n)

def template (v : Version) (loc : Loc) (quasis : List Quasi) (expressions : List ExprCode) :
    Emit Unit :=
  match quasis, expressions with
  | [q], [] => text v loc q.text q.hexEscaped
  | _, _ => do
    let n ← templateParts v quasis expressions
    emit v (.counted .stringPush n) loc.line

def taggedParts : List ExprCode → Emit Nat
  | [] => pure 0
  | part :: rest => do
    let n ← part.part
    let m ← taggedParts rest
    pure (n + m)

def tagged (v : Version) (loc : Loc) (parts : List ExprCode) : Emit Unit := do
  let n ← taggedParts parts
  emit v (.counted .stringPush n) loc.line

/-- The elements of an array, with an action after each. -/
def arrayElements (loc : Loc) (after : Emit Unit) : List (Option ExprCode) → Emit Unit
  | [] => pure ()
  | none :: _ => reject loc .arrayHole
  | some e :: rest => do
    e.value
    after
    arrayElements loc after rest

def array (v : Version) (loc : Loc) (elements : List (Option ExprCode)) : Emit Unit :=
  if v.has .newArrayConst then do
    emit v (.counted .arrayConst elements.length) loc.line
    arrayElements loc (emit v (.simple .arrayPush) 0) elements
  else do
    arrayElements loc (pure ()) elements
    emit v (.counted .arrayConstOld elements.length) loc.line

def mapEntry (v : Version) (entry : ExprCode × ExprCode) : Emit Unit := do
  entry.1.value
  entry.2.value
  emit v (.simple .mapInsert) 0

def map (v : Version) (loc : Loc) (entries : List (ExprCode × ExprCode)) : Emit Unit := do
  require (v.has .maps) loc .mapUnsupported
  emit v (.simple .mapConst) loc.line
  entries.forM (mapEntry v)

end Adhoc.Emit
