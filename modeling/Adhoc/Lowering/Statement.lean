import Adhoc.Lowering.Exception
import Adhoc.Path

namespace Adhoc

/-- Where included files come from. -/
structure Sources where
  /-- Whether there is a file or a folder. -/
  exists_ : String → Bool
  /-- The program in a file, if it can be read. -/
  read? : String → Option Program

/-- What the code of a tree depends on apart from the tree. -/
structure Context where
  version : Version
  logsExceptions : Bool
  /-- Where to look for an included file that is not in the first folder. -/
  projectFolder : Option String
  sources : Sources
  /-- Runs the statements of an included file. -/
  follow : List Stmt → Emit Unit

namespace Emit

def moduleConstructor (v : Version) (id : ExprCode) (body : StmtCode) : Emit Unit := do
  id.value
  emit v (.simple .moduleConstructor) 0
  body.run
  setState v .exit

def print (v : Version) (loc : Loc) (arguments : List ExprCode) : Emit Unit := do
  pushAll arguments
  emit v (.counted .print arguments.length) loc.line
  pop v

def undef (v : Version) (loc : Loc) (name : String) : Emit Unit := do
  let path ← pathSymbols name
  emit v (.pathed .undef path) loc.line

def setSource (source : Option Symbol) : Emit Unit := modify fun s =>
  { s with frame := { s.frame with source := source } }

/-- Code from here on comes from another file. -/
def sourceFile (v : Version) (path : String) : Emit Unit := do
  let symbol ← plainSymbol path
  emit v (.named .sourceFile symbol) 0
  setSource (some symbol)

/-- The variable of a declaration. Without a value it only gets its slot. -/
def declaredTarget (v : Version) (id : ExprCode) (takesValue : Bool) (after : Emit Unit) :
    Emit Unit :=
  match id.expr, id.pattern? with
  | .ident loc name, _ =>
    if takesValue then do
      pushName v name loc true
      after
    else declareName name
  | _, some pattern => pattern true
  | _, none => reject id.loc .declarationNotName

/-- Assigns to a variable that was pushed before its value. -/
def assignDeclared (v : Version) (id : ExprCode) : Emit Unit :=
  match id.expr with
  | .arrayPattern loc elements => do
    emit v (.counted .listAssignOld elements.length) loc.line
    pop v
  | _ => assignPop v

def declarator (v : Version) (fromStack : Bool) (d : DeclaratorCode) : Emit Unit :=
  match d.id with
  | none => reject d.loc .declarationWithoutName
  | some id => do
    require (id.name? != some "nil") id.loc .variableNamedNil
    let takesValue := d.init.isSome || fromStack
    if v.has .valueBeforePush then
      match d.init with
      | some init => init.declared
      | none => pure ()
      declaredTarget v id takesValue (assignPop v)
    else
      declaredTarget v id takesValue (pure ())
      match d.init with
      | some init =>
        init.declared
        assignDeclared v id
      | none => pure ()

def declare (v : Version) (declarators : List DeclaratorCode) (fromStack : Bool) : Emit Unit :=
  declarators.forM (declarator v fromStack)

/-- The first folder to look in: that of the source, unless it is already settled. -/
def includeFolder : Emit String := fun s =>
  match s.includeFolder with
  | some folder => .ok (folder, s)
  | none =>
    let folder := match s.frame.source with
      | some source => Path.parent source.name
      | none => ""
    .ok (folder, { s with includeFolder := some folder })

/-- Where the included file is. -/
def locateInclude (cx : Context) (loc : Loc) (path : String) : Emit String := do
  let folder ← includeFolder
  let first := Path.join folder path
  if cx.sources.exists_ first then pure first
  else
    match cx.projectFolder with
    | some project =>
      let second := Path.join project path
      if cx.sources.exists_ second then pure second else reject loc (.includeNotFound first)
    | none => reject loc (.includeNotFound first)

/-- The statements of another file, between two marks. -/
def includeFile (cx : Context) (loc : Loc) (path : String) : Emit Unit := do
  let location ← locateInclude cx loc path
  match cx.sources.read? location with
  | none => reject loc (.includeUnreadable location)
  | some program =>
    let f ← frame
    let inner ← plainSymbol path
    setSource (some inner)
    emit cx.version (.named .sourceFile inner) loc.line
    cx.follow program.body
    let outer ← match f.source with
      | some outer => pure outer
      | none => plainSymbol ""
    emit cx.version (.named .sourceFile outer) loc.line
    setSource f.source

end Emit
end Adhoc
