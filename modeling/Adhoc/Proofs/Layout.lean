import Adhoc.Lowering.Tree

namespace Adhoc

/-- A piece of a tree that is lowered to one stretch of code. -/
inductive Part
  | expr (e : Expr)
  | stmt (s : Stmt)

def Node.part : Node → Part
  | .stmt s => .stmt s
  | .expr e => .expr e

/-- The parts of an expression that are lowered into the same frame, in the order of their code. -/
def Expr.parts (v : Version) : Expr → List Part
  | .ident .. | .literal .. | .path .. | .rest .. | .importName .. | .yield .. | .selfRef .. => []
  | .function _ r | .method _ r | .arrow _ r => r.params.map .expr
  | .call _ callee arguments => .expr callee :: arguments.map .expr
  | .unary _ _ e | .update _ _ _ e | .attribute _ e _ _ | .staticDecl _ e | .attributeDecl _ e
  | .spread _ e => [.expr e]
  | .binary _ _ left right | .logical _ _ left right | .element _ left right _
  | .selector _ left right => [.expr left, .expr right]
  | .array _ elements => (elements.filterMap id).map .expr
  | .map _ entries => entries.flatMap fun (key, value) => [.expr key, .expr value]
  | .assign _ op left right =>
    if op == .assign && v.has .valueBeforePush then [.expr right, .expr left]
    else [.expr left, .expr right]
  | .assignPattern _ _ right => [.expr right]
  | .conditional _ test consequent alternate => [.expr test, .expr consequent, .expr alternate]
  -- Expressions without a quasi before them are not lowered.
  | .template _ quasis expressions => (expressions.take quasis.length).map .expr
  | .arrayPattern _ es | .tagged _ es | .sequence _ es => es.map .expr
  | .classDef _ definition => definition.body.map .stmt
  -- An awaited call is lowered into a frame of its own.
  | .await _ (.call ..) => []
  | .await _ e => [.expr e]

def Declarator.parts (v : Version) (d : Declarator) : List Part :=
  if v.has .valueBeforePush then d.init.toList.map .expr ++ d.id.toList.map .expr
  else d.id.toList.map .expr ++ d.init.toList.map .expr

theorem Declarator.mem_parts (v : Version) (d : Declarator) {e : Expr} (h : e ∈ d.id ∨ e ∈ d.init) :
    .expr e ∈ d.parts v := by
  unfold Declarator.parts
  split <;> simpa [or_comm] using h

/-- A returned assignment is followed by a read of its target. -/
def Expr.returnedParts : Expr → List Part
  | .assign loc op left right => [.expr (.assign loc op left right), .expr left]
  | e => [.expr e]

theorem Expr.mem_returnedParts (e : Expr) : .expr e ∈ e.returnedParts := by
  cases e <;> exact List.mem_cons_self

theorem Expr.exists_of_ident? {e : Expr} {name : String} (h : e.ident? = some name) :
    ∃ loc, e = .ident loc name := by
  cases e <;> cases h
  exact ⟨_, rfl⟩

/-- The parts of a statement that are lowered into the same frame, in the order of their code. -/
def Stmt.parts (v : Version) : Stmt → List Part
  | .classDef _ definition => definition.body.map .stmt
  | .function _ r => if r.id.isSome then r.params.map .expr else []
  | .method _ r => r.params.map .expr
  | .forLoop _ init test update body =>
    init.toList.map Node.part ++ test.toList.map .expr ++ [.stmt body] ++ update.toList.map .expr
  | .foreach _ left right body => [.expr right, left.part, .stmt body]
  | .whileLoop _ test body => [.expr test, .stmt body]
  | .doWhile _ body test => [.stmt body, .expr test]
  | .declare _ declarators => declarators.flatMap (Declarator.parts v)
  | .returnValue _ argument => argument.toList.flatMap Expr.returnedParts
  | .ifElse _ test consequent alternate =>
    [.expr test, .stmt consequent] ++ alternate.toList.map .stmt
  | .block _ body => body.map .stmt
  | .switch _ discriminant cases =>
    .expr discriminant :: (cases.filterMap (·.test)).map .expr ++
      (cases.flatMap (·.consequent)).map .stmt
  | .labeled _ _ body => [.stmt body]
  | .expression _ e | .require _ e | .throw _ e | .finalizer _ e => [.expr e]
  | .tryCatch _ tried handler last =>
    .stmt tried :: (handler.toList.map fun h => .stmt h.body) ++ last.toList.map .stmt
  | .moduleConstructor _ id body => [.expr id, .stmt body]
  | .print _ arguments => arguments.map .expr
  | .importName .. | .continueLoop .. | .breakOut .. | .includeFile .. | .undef .. | .sourceFile ..
  | .delegate .. | .empty .. => []

namespace Part

def parts (v : Version) : Part → List Part
  | .expr e => e.parts v
  | .stmt s => s.parts v

/-- The body of a subroutine, which is lowered into a frame of its own. -/
def body? : Part → Option Node
  | .expr (.function _ r) | .expr (.method _ r) | .expr (.arrow _ r) | .stmt (.method _ r) =>
    some r.body
  | .stmt (.function _ r) => if r.id.isSome then some r.body else none
  | .expr (.await _ (.call loc callee arguments)) => some (.expr (.call loc callee arguments))
  | _ => none

/-- Whether nothing is said of the code apart from where the parts stand in it. -/
def isPlain (p : Part) : Bool :=
  p.body?.isNone && match p with
  | .stmt (.forLoop ..) | .stmt (.foreach ..) | .stmt (.whileLoop ..) | .stmt (.doWhile ..)
  | .stmt (.switch ..) | .stmt (.labeled ..) | .stmt (.breakOut ..) | .stmt (.continueLoop ..)
  | .stmt (.includeFile ..) => false
  | _ => true

end Part

/-- Where includes of a compilation may lead. -/
structure Library where
  sources : Sources
  includeFolder : Option String
  projectFolder : Option String

namespace Library

/-- Where the file is, if it is looked for in the given folder first. -/
def locate? (lib : Library) (folder path : String) : Option String :=
  if lib.sources.exists_ (Path.join folder path) then some (Path.join folder path)
  else lib.projectFolder.bind fun project =>
    if lib.sources.exists_ (Path.join project path) then some (Path.join project path) else none

/-- The program that an include brings in. If no folder is given, it depends on the source. -/
def Includes (lib : Library) (path : String) (program : Program) : Prop :=
  ∃ folder location, (∀ f, lib.includeFolder = some f → folder = f) ∧
    lib.locate? folder path = some location ∧ lib.sources.read? location = some program

/-- If the folder is settled, an include brings in one program. -/
theorem Includes.eq {lib : Library} {path : String} {program program' : Program}
    (h : lib.Includes path program) (h' : lib.Includes path program')
    (hf : lib.includeFolder.isSome = true) : program' = program := by
  obtain ⟨folder, hfolder⟩ := Option.isSome_iff_exists.1 hf
  obtain ⟨f, location, hlib, hlocate, hread⟩ := h
  obtain ⟨f', location', hlib', hlocate', hread'⟩ := h'
  obtain rfl := hlib _ hfolder
  obtain rfl := hlib' _ hfolder
  obtain rfl := Option.some.inj (hlocate.symm.trans hlocate')
  exact Option.some.inj (hread'.symm.trans hread)

end Library

section

variable (lib : Library) (v : Version)

/-- The part holds a `continue` in its own frame, also in a file that it includes. -/
inductive Continues : Part → Prop
  | here (loc : Loc) (label : Option String) : Continues (.stmt (.continueLoop loc label))
  | part {p q : Part} : q ∈ p.parts v → Continues q → Continues p
  | included {loc : Loc} {path : String} {program : Program} {s : Stmt} :
    lib.Includes path program → s ∈ program.body → Continues (.stmt s) →
    Continues (.stmt (.includeFile loc path))

/-- One part occurs in another, at any depth and in any included file, and if `nested` is true also
in the bodies of functions. -/
inductive Occurs (nested : Prop) : Part → Part → Prop
  | here (p : Part) : Occurs nested p p
  | part {p q r : Part} : q ∈ p.parts v → Occurs nested q r → Occurs nested p r
  | body {p r : Part} {n : Node} : nested → p.body? = some n → Occurs nested n.part r →
    Occurs nested p r
  | included {loc : Loc} {path : String} {program : Program} {s : Stmt} {r : Part} :
    lib.Includes path program → s ∈ program.body → Occurs nested (.stmt s) r →
    Occurs nested (.stmt (.includeFile loc path)) r

/-- No `for` loop in the part has a `continue` in its update. -/
def QuietUpdates (p : Part) : Prop :=
  ∀ ⦃loc init test update body⦄,
    Occurs lib v True p (.stmt (.forLoop loc init test (some update) body)) →
      ¬ Continues lib v (.expr update)

end

/-- A loop or switch, as the code inside it sees it. -/
structure Enclosing where
  label : Option String
  /-- Where `break` goes. -/
  exit : Nat
  /-- Where `continue` goes; a switch has no such place. -/
  again : Option Nat

/-- Where a `break` goes, under the given loops and switches, the innermost first. -/
def breakTarget? (around : List Enclosing) : Option String → Option Nat
  | none => around.head?.map (·.exit)
  | some l => (around.find? (·.label == some l)).map (·.exit)

/-- Where a `continue` goes. -/
def continueTarget? (around : List Enclosing) : Option String → Option Nat
  | none => (around.find? (·.again.isSome)).bind (·.again)
  | some l => (around.find? (·.label == some l)).bind (·.again)

/-- A loop or switch with the given exit ends at `j`: since version 11 by its own `LEAVE`. -/
def Ends (v : Version) (code : List Instruction) (exit j : Nat) : Prop :=
  if 11 ≤ v.number then ∃ rewind, code[exit]? = some ⟨0, .leave 0 rewind⟩ ∧ j = exit + 1
  else j = exit

section

variable (lib : Library) (v : Version)

mutual

/-- The part was lowered to the instructions from `i` up to `j`. -/
inductive Laid : List Instruction → List Enclosing → Part → Nat → Nat → Prop
  | plain {code around p i j} : p.isPlain = true → Tiled code around (p.parts v) i j →
    Laid code around p i j
  | routine {code around p n line name frame isMethod i j} : p.body? = some n →
    Tiled code around (p.parts v) i j →
    code[j]? = some ⟨line, .subroutine name frame isMethod⟩ →
    Tiled frame.code [] [n.part] 0 frame.code.length →
    Laid code around p i (j + 1)
  | breakOut {code around label loc i target} : breakTarget? around label = some target →
    code[i]? = some ⟨0, .jump .always (some target)⟩ →
    Laid code around (.stmt (.breakOut loc label)) i (i + 1)
  | continueLoop {code around label loc i target} : continueTarget? around label = some target →
    code[i]? = some ⟨loc.line, .jump .always (some target)⟩ →
    Laid code around (.stmt (.continueLoop loc label)) i (i + 1)
  | loop {code around s i j} : LaidLoop code around none s i j → Laid code around (.stmt s) i j
  /-- No other open loop has the label. -/
  | labeled {code around label loc s i j} : (∀ e ∈ around, e.label ≠ some label) →
    LaidLoop code around (some label) s i j →
    Laid code around (.stmt (.labeled loc label s)) i j
  | switch {code around loc discriminant cases i exit j} :
    Tiled code (⟨none, exit, none⟩ :: around)
      (Stmt.parts v (.switch loc discriminant cases)) i exit →
    Ends v code exit j →
    Laid code around (.stmt (.switch loc discriminant cases)) i j
  | includeFile {code around loc path program i j} : lib.Includes path program →
    Tiled code around (program.body.map .stmt) i j →
    Laid code around (.stmt (.includeFile loc path)) i j

/-- The parts stand between `i` and `j` one after the other; other instructions may stand before,
between and after them. -/
inductive Tiled : List Instruction → List Enclosing → List Part → Nat → Nat → Prop
  | nil {code around i j} : i ≤ j → Tiled code around [] i j
  | cons {code around p ps i a b j} : i ≤ a → Laid code around p a b →
    Tiled code around ps b j → Tiled code around (p :: ps) i j

/-- The loop, which may have a label, was lowered to the instructions from `i` up to `j`. -/
inductive LaidLoop : List Instruction → List Enclosing → Option String → Stmt → Nat → Nat → Prop
  /-- `continue` goes to the update. -/
  | forLoop {code around label loc init test update body i start updateStart back line j} :
    Tiled code (⟨label, back + 1, some updateStart⟩ :: around) (init.toList.map Node.part) i start →
    Tiled code (⟨label, back + 1, some updateStart⟩ :: around)
      (test.toList.map .expr ++ [.stmt body]) start updateStart →
    Tiled code (⟨label, back + 1, some updateStart⟩ :: around) (update.toList.map .expr)
      updateStart back →
    code[back]? = some ⟨line, .jump .always (some start)⟩ →
    Ends v code (back + 1) j →
    LaidLoop code around label (.forLoop loc init test update body) i j
  /-- `continue` goes to the jump back. -/
  | whileLoop {code around label loc test body i back line j} :
    Tiled code (⟨label, back + 1, some back⟩ :: around) [.expr test, .stmt body] i back →
    code[back]? = some ⟨line, .jump .always (some i)⟩ →
    Ends v code (back + 1) j →
    LaidLoop code around label (.whileLoop loc test body) i j
  /-- `continue` goes to the test. -/
  | doWhile {code around label loc body test i testStart back line j} :
    Tiled code (⟨label, back + 1, some testStart⟩ :: around) [.stmt body] i testStart →
    Tiled code (⟨label, back + 1, some testStart⟩ :: around) [.expr test] testStart back →
    code[back]? = some ⟨line, .jump .always (some i)⟩ →
    Ends v code (back + 1) j →
    LaidLoop code around label (.doWhile loc body test) i j
  /-- `continue` goes to the jump back. -/
  | foreach {code around label loc left right body i start back line j} :
    Tiled code (⟨label, back + 1, some back⟩ :: around) [.expr right] i start →
    Tiled code (⟨label, back + 1, some back⟩ :: around) [left.part, .stmt body] start back →
    code[back]? = some ⟨line, .jump .always (some start)⟩ →
    Ends v code (back + 1) j →
    LaidLoop code around label (.foreach loc left right body) i j

end

end

end Adhoc
