import Adhoc.Symbol

namespace Adhoc

structure Module where
  name : String
  parent : Option Nat
  statics : List Symbol := []
  attributes : List Symbol := []
  methods : List Symbol := []
deriving Repr

namespace Module

/-- Every member, statics first, then attributes, then methods. -/
def members (m : Module) : List Symbol := m.statics ++ m.attributes ++ m.methods

end Module

/-- What a name is defined as in a module. -/
inductive MemberKind
  | static
  | attribute
  | method
deriving DecidableEq, Repr

namespace Module

def membersOf (m : Module) : MemberKind → List Symbol
  | .static => m.statics
  | .attribute => m.attributes
  | .method => m.methods

def has (m : Module) (kind : MemberKind) (symbol : Symbol) : Bool :=
  (m.membersOf kind).contains symbol

/-- Whether the symbol is a static or an attribute of the module. -/
def declares (m : Module) (symbol : Symbol) : Bool := m.has .static symbol || m.has .attribute symbol

def add (m : Module) (symbol : Symbol) : MemberKind → Module
  | .static => { m with statics := m.statics ++ [symbol] }
  | .attribute => { m with attributes := m.attributes ++ [symbol] }
  | .method => { m with methods := m.methods ++ [symbol] }

end Module

/-- Modules form a tree. Module 0 is the top level, a module is numbered when it is entered, and the open
ones form a path from the top. -/
structure ModuleTree where
  modules : Array Module := #[⟨"<top>", none, [], [], []⟩]
  /-- The open modules, the innermost first. -/
  path : List Nat := [0]

namespace ModuleTree

def current (t : ModuleTree) : Nat := t.path.headD 0

/-- How many modules are open, the top level included. -/
def depth (t : ModuleTree) : Nat := t.path.length

def get? (t : ModuleTree) (id : Nat) : Option Module := t.modules[id]?

/-- Opens a new module inside the current one. -/
def enter (t : ModuleTree) (name : String) : Nat × ModuleTree :=
  let id := t.modules.size
  (id, { modules := t.modules.push ⟨name, some t.current, [], [], []⟩, path := id :: t.path })

/-- Closes the current module; the top level stays open. -/
def leave (t : ModuleTree) : ModuleTree :=
  match t.path with
  | _ :: outer :: rest => { t with path := outer :: rest }
  | _ => t

/-- Defines a member of a module. The flag says whether it is new. -/
def defineIn (t : ModuleTree) (id : Nat) (kind : MemberKind) (symbol : Symbol) : Bool × ModuleTree :=
  match t.get? id with
  | none => (false, t)
  | some m =>
    if m.has kind symbol then (false, t)
    else (true, { t with modules := t.modules.setIfInBounds id (m.add symbol kind) })

theorem defineIn_path (t : ModuleTree) (id : Nat) (kind : MemberKind) (symbol : Symbol) :
    (t.defineIn id kind symbol).2.path = t.path := by
  unfold defineIn
  split
  · rfl
  · split <;> rfl

def define (t : ModuleTree) (kind : MemberKind) (symbol : Symbol) : Bool × ModuleTree :=
  t.defineIn t.current kind symbol

/-- The first module that was entered under the name. -/
def named? (t : ModuleTree) (name : String) : Option Module :=
  (t.modules.toList.drop 1).find? fun m => m.name == name

/-- Whether the symbol is a static or an attribute of the module or of one around it. -/
def sees (t : ModuleTree) (symbol : Symbol) (id : Nat) : Bool :=
  match t.get? id with
  | none => false
  | some m =>
    m.declares symbol ||
      match m.parent with
      | none => false
      | some parent => if parent < id then t.sees symbol parent else false
termination_by id

end ModuleTree
end Adhoc
