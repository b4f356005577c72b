import Adhoc.Proofs.Layout

namespace Adhoc

namespace Expr

/-- How many values the code of an expression leaves. Of the arguments of `call(...)` only two are
ever taken away. -/
def gain : Expr → Int
  | .assign .. | .staticDecl .. | .attributeDecl .. | .classDef .. | .importName .. | .yield .. => 0
  | .function _ r => if r.id.isSome then 0 else 1
  | .call _ callee arguments =>
    if callee.ident? = some "call" then (arguments.length : Int) - 1 else 1
  | _ => 1

/-- How many values it leaves where an assignment keeps its value. -/
def keptGain : Expr → Int
  | .assign _ _ (.arrayPattern ..) _ => 0
  | .assign .. => 1
  | e => e.gain

/-- A returned assignment is followed by a read of its target. -/
def returnedGain : Expr → Int
  | .assign _ _ left _ => left.gain
  | e => e.gain

def isArrayPattern : Expr → Bool
  | .arrayPattern .. => true
  | _ => false

/-- A pop follows only if the expression leaves one value. -/
def FitStep (e : Expr) : Prop := Emit.leavesValue e = true → e.gain = 1

/-- After `static` and `attribute` the right side is a plain value. -/
def FitDeclaration : Expr → Prop
  | .assign _ _ _ right => right.gain = 1
  | _ => True

/-- Every operand leaves exactly one value. If `nested` is true, so does an expression that is the
body of a function. -/
def Fit (v : Version) (nested : Prop) : Expr → Prop
  | .function _ r | .method _ r | .arrow _ r => nested → ∀ e, r.body = .expr e → e.gain = 1
  | .call _ callee arguments =>
    (callee.ident? ≠ some "call" → callee.gain = 1) ∧ ∀ a ∈ arguments, a.gain = 1
  | .unary _ _ e | .update _ _ _ e | .spread _ e | .attribute _ e _ _ => e.gain = 1
  | .binary _ _ left right | .logical _ _ left right => left.keptGain = 1 ∧ right.gain = 1
  | .array _ elements => ∀ e, some e ∈ elements → e.gain = 1
  | .map _ entries => ∀ p ∈ entries, p.1.gain = 1 ∧ p.2.gain = 1
  | .element _ a b _ | .selector _ a b => a.gain = 1 ∧ b.gain = 1
  | .assign _ op _ right =>
    (if op = .assign ∧ v.has .valueBeforePush = false then right.gain else right.keptGain) = 1 ∧
      (op = .assign ∨ v.has .binaryAssign = true)
  | .arrayPattern .. => v.has .newListAssign = true
  | .conditional _ a b c => a.gain = 1 ∧ b.gain = 1 ∧ c.gain = 1
  | .template _ quasis es => ∀ e ∈ es.take quasis.length, e.gain = 1
  | .sequence _ es => ∀ e ∈ es, e.FitStep
  | .staticDecl _ e => e.FitDeclaration
  | .attributeDecl _ e => e.FitDeclaration ∧ v.has .attributeDefinePops = true
  | .await _ (.call loc callee arguments) => nested → (Expr.call loc callee arguments).gain = 1
  | .await _ e => e.gain = 1
  | .ident .. | .literal .. | .path .. | .assignPattern .. | .rest .. | .tagged .. | .classDef ..
  | .importName .. | .yield .. | .selfRef .. => True

end Expr

/-- The initial value is one, and a pattern has one. -/
def Declarator.Fit (d : Declarator) : Prop :=
  (∀ e ∈ d.init, e.keptGain = 1) ∧ ∀ e ∈ d.id, e.isArrayPattern = true → d.init.isSome = true

/-- The variable of `foreach` is one name without an initial value. -/
def Node.FitNext : Node → Prop
  | .stmt (.declare _ declarators) => ∃ d, declarators = [d] ∧ d.init = none
  | _ => True

/-- The statement takes away all values that its expressions leave. -/
def Stmt.Fit : Stmt → Prop
  | .forLoop _ init test update _ =>
    (∀ e, init = some (.expr e) → e.gain = 0) ∧ (∀ e ∈ test, e.keptGain = 1) ∧
      ∀ e ∈ update, e.FitStep
  | .foreach _ left right _ => right.gain = 1 ∧ left.FitNext
  | .whileLoop _ test _ | .doWhile _ _ test | .ifElse _ test _ _ => test.keptGain = 1
  | .declare _ declarators => ∀ d ∈ declarators, d.Fit
  | .returnValue _ argument => ∀ e ∈ argument, e.returnedGain = 1
  | .expression _ e => e.FitStep
  | .switch _ e cases => e.gain = 1 ∧ ∀ c ∈ cases, ∀ t ∈ c.test, t.gain = 1
  | .require _ e | .throw _ e | .finalizer _ e | .moduleConstructor _ e _ => e.gain = 1
  -- The operands of `print` stay on the counter.
  | .print _ arguments => arguments = []
  | .classDef .. | .function .. | .method .. | .importName .. | .block .. | .continueLoop ..
  | .breakOut .. | .labeled .. | .includeFile .. | .tryCatch .. | .undef .. | .sourceFile ..
  | .delegate .. | .empty .. => True

namespace Part

def Fit (v : Version) (nested : Prop) : Part → Prop
  | .expr e => e.Fit v nested
  | .stmt s => s.Fit

/-- Everything in the part is fit, in its frame and in the files that it includes; if `nested` is
true, also in the bodies of functions. -/
def Proper (lib : Library) (v : Version) (nested : Prop) (p : Part) : Prop :=
  ∀ ⦃q⦄, Occurs lib v nested p q → q.Fit v nested

namespace Proper

variable {lib : Library} {v : Version} {nested : Prop} {p q : Part}

theorem fit (h : p.Proper lib v nested) : p.Fit v nested := h (.here p)

theorem part (h : p.Proper lib v nested) (hq : q ∈ p.parts v) : q.Proper lib v nested :=
  fun _ ho => h (.part hq ho)

theorem body {n : Node} (h : p.Proper lib v nested) (hn : nested) (hp : p.body? = some n) :
    n.part.Proper lib v nested := fun _ ho => h (.body hn hp ho)

theorem included {loc : Loc} {path : String} {program : Program} {s : Stmt}
    (h : (Part.stmt (.includeFile loc path)).Proper lib v nested)
    (hp : lib.Includes path program) (hs : s ∈ program.body) :
    (Part.stmt s).Proper lib v nested := fun _ ho => h (.included hp hs ho)

end Proper

end Part

end Adhoc
