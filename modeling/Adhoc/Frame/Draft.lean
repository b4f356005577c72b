import Adhoc.Frame.Effect
import Adhoc.Scope

namespace Adhoc

/-- A frame under construction: its header and code so far, the open scopes, and for a closure the
locals of the frame around it. Whether a name is a local, a static or a captured variable depends on
this state alone. -/
structure Draft extends FrameHeader where
  code : Array Instruction := #[]
  /-- The locals of the enclosing frame when a closure was begun; only closures have them. -/
  enclosing : Option (List Symbol) := none
  /-- The open scopes, the innermost first. -/
  scopes : List Scope := []

abbrev Drafting := StateT Draft (Except Defect)

/-- How a name is used where it is resolved. -/
inductive Access
  | read
  | readStatic
  | write
  | writeStatic
  | declare
deriving DecidableEq, Repr

namespace Draft

def start (v : Version) (source : Option Symbol) : Draft where
  slots := .empty v
  source := source

/-- A draft for a subroutine that is defined in `d`. Only a closure captures locals of `d`. -/
def child (d : Draft) (v : Version) (captures : Bool) : Draft :=
  { start v d.source with
    isRoot := false
    enclosing := if captures then some d.slots.locals else none }

def finish (d : Draft) : Frame := ⟨d.toFrameHeader, d.code.toList⟩

/-- The draft with another instruction. -/
@[simp] abbrev write (d : Draft) (ins : Instruction) (depth : Depth) : Draft :=
  { d with depth := depth, code := d.code.push ins, moments := d.moments.push d.slots }

/-- Appends an instruction without its stack effect and gives its index. -/
def append (op : Operation) (line : UInt32) : Drafting Nat := fun d =>
  .ok (d.code.size, d.write ⟨line, op⟩ d.depth)

/-- Appends an instruction and gives its index. -/
def add (v : Version) (op : Operation) (line : UInt32) : Drafting Nat := fun d =>
  match op.effect v with
  | .error e => .error e
  | .ok moves => .ok (d.code.size,
    d.write ⟨line, op⟩ (d.depth.follow moves))

/-- Appends an instruction written by hand, with its counts and the depth in 32-bit words. Counts
that come from a tree are the numbers of its parts and need no such check. -/
def addByHand (v : Version) (op : Operation) (line : UInt32) : Drafting Nat := fun d => do
  let moves ← op.effect v
  let depth ← d.depth.follow? moves
  pure (d.code.size, d.write ⟨line, op⟩ depth)

/-- With small counts, an instruction that can be written by hand is appended as any other. -/
theorem add_of_addByHand {v : Version} {op : Operation} {line : UInt32} {d : Draft}
    {result : Nat × Draft} {moves : List Move} (he : op.effect v = .ok moves)
    (hm : ∀ m ∈ moves, m.count < 0x80000000) (h : addByHand v op line d = .ok result) :
    add v op line d = .ok result := by
  simp only [addByHand, he, bind, Except.bind] at h
  split at h
  · simp at h
  · rename_i depth hd
    rw [Depth.follow?_eq_ok hm hd] at h
    simpa [add, he, pure, Except.pure] using h

/-- Sets the target of the jump at `index`. -/
def patch (index target : Nat) : Drafting Unit := fun d =>
  match d.code[index]? with
  | none => .error (.notAJump index)
  | some ins =>
    match ins.operation.withTarget? target with
    | none => .error (.notAJump index)
    | some op => .ok ((), { d with code := d.code.setIfInBounds index { ins with operation := op } })

/-- The target of the instruction at `index`, if it is a jump with a target. -/
def target? (d : Draft) (index : Nat) : Option Nat :=
  d.code[index]?.bind fun ins => ins.operation.target?.join

def dropDepth (n : Int) : Drafting Unit := fun d => .ok ((), { d with depth := d.depth.pop n })

def pushScope (kind : ScopeKind) : Drafting Unit := fun d =>
  .ok ((), { d with scopes := { kind := kind } :: d.scopes })

def popScope : Drafting Scope := fun d =>
  match d.scopes with
  | [] => .error .scopeUnderflow
  | scope :: rest => .ok (scope, { d with scopes := rest })

def scope : Drafting Scope := fun d =>
  match d.scopes with
  | [] => .error .noOpenScope
  | scope :: _ => .ok (scope, d)

/-- Changes the innermost scope. -/
def updateScope {α : Type} (f : Scope → α × Scope) : Drafting α := fun d =>
  match d.scopes with
  | [] => .error .noOpenScope
  | scope :: rest => let (a, scope) := f scope; .ok (a, { d with scopes := scope :: rest })

/-- Changes the innermost scope that satisfies `p`. -/
def updateFirst {α : Type} (p : Scope → Bool) (f : Scope → α × Scope) :
    List Scope → Option (α × List Scope)
  | [] => none
  | scope :: rest =>
    if p scope then let (a, scope) := f scope; some (a, scope :: rest)
    else (updateFirst p f rest).map fun (a, rest) => (a, scope :: rest)

/-- Whether a `break` with this label leaves the scope. -/
def leftBy (label : Option String) (scope : Scope) : Bool :=
  match label with
  | some l => scope.kind.label? == some l
  | none => scope.kind.takesBreak

/-- Whether a `continue` with this label goes round the scope. -/
def continuedBy (label : Option String) (scope : Scope) : Bool :=
  match label with
  | some l => scope.kind.label? == some l
  | none => scope.kind.isLoop

def canBreak (d : Draft) (label : Option String) : Bool := d.scopes.any (leftBy label)

def canContinue (d : Draft) (label : Option String) : Bool := d.scopes.any (continuedBy label)

/-- Notes the jump of a `break`; `none` if no open scope takes it. -/
def noteBreak (label : Option String) (jump : Nat) : Drafting (Option Bool) := fun d =>
  match updateFirst (leftBy label) (·.addBreak jump) d.scopes with
  | none => .ok (none, d)
  | some (noted, scopes) => .ok (some noted, { d with scopes := scopes })

/-- Notes the jump of a `continue`; `none` if no open loop takes it. -/
def noteContinue (label : Option String) (jump : Nat) : Drafting (Option Bool) := fun d =>
  match updateFirst (continuedBy label) (·.addContinue jump) d.scopes with
  | none => .ok (none, d)
  | some (noted, scopes) => .ok (some noted, { d with scopes := scopes })

def atTop (d : Draft) : Bool := d.scopes.length == 1

/-- A closure captures a local of the enclosing frame unless it has one of that name itself. -/
def captures (d : Draft) (symbol : Symbol) : Bool :=
  match d.enclosing with
  | none => false
  | some outer =>
    outer.contains symbol &&
      ((!d.slots.hasLocal symbol && !d.parameters.contains symbol) || d.captured.contains symbol)

/-- The index of a captured variable. A first capture also takes a local slot. -/
def capture (symbol : Symbol) : Drafting Int := fun d =>
  if d.captured.contains symbol then .ok (-(d.captured.idxOf symbol + 1 : Nat), d)
  else .ok (-(d.captured.length + 1 : Nat),
    { d with
      captured := d.captured ++ [symbol]
      slots := (d.slots.findOrAddLocal symbol).2 })

def useLocal (symbol : Symbol) : Drafting Int := fun d =>
  let ((index, isNew), slots) := d.slots.findOrAddLocal symbol
  if isNew then
    match d.scopes with
    | [] => .error .noOpenScope
    | scope :: rest =>
      .ok (index, { d with slots := slots, scopes := scope.addLocal symbol :: rest })
  else .ok (index, { d with slots := slots })

def useStatic (symbol : Symbol) : Drafting Int := fun d =>
  let ((index, isNew), slots) := d.slots.findOrAddStatic symbol
  if isNew then
    match d.scopes with
    | [] => .error .noOpenScope
    | scope :: rest =>
      .ok (index, { d with slots := slots, scopes := scope.addStatic symbol :: rest })
  else .ok (index, { d with slots := slots })

/-- The index of a name, with a slot made for it if it has none. Captured variables have negative
indices. -/
def resolve (symbol : Symbol) (access : Access) : Drafting Int := fun d =>
  match access with
  | .declare => useLocal symbol d
  | .writeStatic => useStatic symbol d
  | .write =>
    if d.captures symbol then capture symbol d
    else if d.slots.hasLocal symbol then useLocal symbol d
    else useStatic symbol d
  | .readStatic => if d.captures symbol then capture symbol d else useStatic symbol d
  | .read =>
    if d.captures symbol then capture symbol d
    else if d.slots.hasLocal symbol then useLocal symbol d
    else useStatic symbol d

/-- Whether an access to the name is written as a static, with the symbol twice. -/
def isStatic (d : Draft) (symbol : Symbol) : Bool :=
  symbol.name != "self" && !d.slots.hasLocal symbol

/-- The slot of a local that is known to be live. -/
def localIndex (symbol : Symbol) : Drafting Int := fun d =>
  match d.slots.localIndex? symbol with
  | some index => .ok (index, d)
  | none => .error (.noLocalSlot symbol.name)

/-- Gives a member (static, attribute, subroutine) a static slot of its own. -/
def addMember (symbol : Symbol) : Drafting Unit := fun d =>
  match d.scopes with
  | [] => .error .noOpenScope
  | scope :: rest =>
    .ok ((), { d with
      slots := (d.slots.addStatic (some symbol)).2
      scopes := scope.addStatic symbol :: rest })

/-- Gives each symbol a static slot without noting it in a scope. -/
def addStatics (symbols : List (Option Symbol)) : Drafting Unit := fun d =>
  .ok ((), { d with slots := symbols.foldl (fun slots s => (slots.addStatic s).2) d.slots })

/-- Appends a parameter and declares it as a local. -/
def addParameter (symbol : Symbol) : Drafting Unit := do
  modify fun d => { d with parameters := d.parameters ++ [symbol] }
  let _ ← resolve symbol .declare

end Draft
end Adhoc
