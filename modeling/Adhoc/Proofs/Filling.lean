import Adhoc.Proofs.TreeInduction

namespace Adhoc

def Stmt.include? : Stmt → Option (Loc × String)
  | .includeFile loc path => some (loc, path)
  | _ => none

theorem Stmt.include?_eq_some {s : Stmt} {loc : Loc} {path : String} :
    s.include? = some (loc, path) ↔ s = .includeFile loc path := by
  cases s <;> simp [Stmt.include?]

section

-- What stands for an include of the path at the position.
variable (fill : Loc → String → List Stmt)

mutual

def Expr.filled : Expr → Expr
  | .ident loc name => .ident loc name
  | .function loc r => .function loc r.filled
  | .method loc r => .method loc r.filled
  | .arrow loc r => .arrow loc r.filled
  | .call loc callee arguments => .call loc callee.filled (exprsFilled arguments)
  | .unary loc op argument => .unary loc op argument.filled
  | .update loc op before argument => .update loc op before argument.filled
  | .binary loc op left right => .binary loc op left.filled right.filled
  | .logical loc op left right => .logical loc op left.filled right.filled
  | .literal loc value => .literal loc value
  | .array loc elements => .array loc (holesFilled elements)
  | .map loc entries => .map loc (pairsFilled entries)
  | .element loc object property optional => .element loc object.filled property.filled optional
  | .path loc object property => .path loc object property
  | .attribute loc object property optional => .attribute loc object.filled property optional
  | .selector loc object property => .selector loc object.filled property.filled
  | .assign loc op left right => .assign loc op left.filled right.filled
  | .assignPattern loc left right => .assignPattern loc left.filled right.filled
  | .arrayPattern loc elements => .arrayPattern loc (exprsFilled elements)
  | .rest loc argument => .rest loc argument
  | .conditional loc test consequent alternate =>
    .conditional loc test.filled consequent.filled alternate.filled
  | .template loc quasis expressions => .template loc quasis (exprsFilled expressions)
  | .tagged loc parts => .tagged loc (exprsFilled parts)
  | .sequence loc expressions => .sequence loc (exprsFilled expressions)
  | .staticDecl loc declaration => .staticDecl loc declaration.filled
  | .attributeDecl loc declaration => .attributeDecl loc declaration.filled
  | .classDef loc definition => .classDef loc definition.filled
  | .importName loc specifiers target asName => .importName loc specifiers target asName
  | .yield loc => .yield loc
  | .await loc argument => .await loc argument.filled
  | .spread loc argument => .spread loc argument.filled
  | .selfRef loc => .selfRef loc

def exprsFilled : List Expr → List Expr
  | [] => []
  | e :: rest => e.filled :: exprsFilled rest

def holeFilled : Option Expr → Option Expr
  | none => none
  | some e => some e.filled

def holesFilled : List (Option Expr) → List (Option Expr)
  | [] => []
  | e :: rest => holeFilled e :: holesFilled rest

def pairFilled : Expr × Expr → Expr × Expr
  | (key, value) => (key.filled, value.filled)

def pairsFilled : List (Expr × Expr) → List (Expr × Expr)
  | [] => []
  | p :: rest => pairFilled p :: pairsFilled rest

def Routine.filled : Routine → Routine
  | ⟨id, params, body⟩ => ⟨id, exprsFilled params, body.filled⟩

def ClassDef.filled : ClassDef → ClassDef
  | ⟨id, superClass, body, isModule⟩ => ⟨id, superClass, stmtsFilled body, isModule⟩

def Node.filled : Node → Node
  | .stmt s => .stmt s.filled
  | .expr e => .expr e.filled

def nodeHoleFilled : Option Node → Option Node
  | none => none
  | some n => some n.filled

def Declarator.filled : Declarator → Declarator
  | ⟨loc, id, init⟩ => ⟨loc, holeFilled id, holeFilled init⟩

def declaratorsFilled : List Declarator → List Declarator
  | [] => []
  | d :: rest => d.filled :: declaratorsFilled rest

def SwitchCase.filled : SwitchCase → SwitchCase
  | ⟨loc, test, consequent⟩ => ⟨loc, holeFilled test, stmtsFilled consequent⟩

def casesFilled : List SwitchCase → List SwitchCase
  | [] => []
  | c :: rest => c.filled :: casesFilled rest

def CatchClause.filled : CatchClause → CatchClause
  | ⟨loc, param, body⟩ => ⟨loc, param, body.filled⟩

def clauseHoleFilled : Option CatchClause → Option CatchClause
  | none => none
  | some c => some c.filled

def Stmt.filled : Stmt → Stmt
  | .classDef loc definition => .classDef loc definition.filled
  | .function loc r => .function loc r.filled
  | .method loc r => .method loc r.filled
  | .forLoop loc init test update body =>
    .forLoop loc (nodeHoleFilled init) (holeFilled test) (holeFilled update) body.filled
  | .foreach loc left right body => .foreach loc left.filled right.filled body.filled
  | .whileLoop loc test body => .whileLoop loc test.filled body.filled
  | .doWhile loc body test => .doWhile loc body.filled test.filled
  | .declare loc declarators => .declare loc (declaratorsFilled declarators)
  | .returnValue loc argument => .returnValue loc (holeFilled argument)
  | .importName loc specifiers target asName => .importName loc specifiers target asName
  | .ifElse loc test consequent alternate =>
    .ifElse loc test.filled consequent.filled (stmtHoleFilled alternate)
  | .block loc body => .block loc (stmtsFilled body)
  | .expression loc value => .expression loc value.filled
  | .switch loc discriminant cases => .switch loc discriminant.filled (casesFilled cases)
  | .continueLoop loc label => .continueLoop loc label
  | .breakOut loc label => .breakOut loc label
  | .labeled loc label body => .labeled loc label body.filled
  | .includeFile loc path => .includeFile loc path
  | .require loc argument => .require loc argument.filled
  | .throw loc argument => .throw loc argument.filled
  | .finalizer loc body => .finalizer loc body.filled
  | .tryCatch loc block handler finalizer =>
    .tryCatch loc block.filled (clauseHoleFilled handler) (stmtHoleFilled finalizer)
  | .undef loc name => .undef loc name
  | .sourceFile loc path => .sourceFile loc path
  | .moduleConstructor loc id body => .moduleConstructor loc id.filled body.filled
  | .print loc arguments => .print loc (exprsFilled arguments)
  | .delegate loc id => .delegate loc id
  | .empty loc => .empty loc

def stmtsFilled : List Stmt → List Stmt
  | [] => []
  | s :: rest =>
    (match s.include? with
      | some (loc, path) => fill loc path
      | none => [s.filled]) ++ stmtsFilled rest

def stmtHoleFilled : Option Stmt → Option Stmt
  | none => none
  | some s => some s.filled

end

end

def Program.filled (fill : Loc → String → List Stmt) (p : Program) : Program where
  body := stmtsFilled fill p.body

section

variable {fill : Loc → String → List Stmt}

@[simp] theorem Expr.loc_filled (e : Expr) : (e.filled fill).loc = e.loc := by cases e <;> rfl

@[simp] theorem Expr.kind_filled (e : Expr) : (e.filled fill).kind = e.kind := by cases e <;> rfl

@[simp] theorem Expr.ident?_filled (e : Expr) : (e.filled fill).ident? = e.ident? := by
  cases e <;> rfl

@[simp] theorem Emit.isTrue_filled (e : Expr) : isTrue (e.filled fill) = isTrue e := by
  cases e <;> rfl

@[simp] theorem Emit.leavesValue_filled (e : Expr) :
    leavesValue (e.filled fill) = leavesValue e := by
  cases e with
  | function loc r => cases r; rfl
  | _ => rfl

theorem length_exprsFilled (es : List Expr) : (exprsFilled fill es).length = es.length := by
  induction es with
  | nil => rfl
  | cons e es ih => rw [exprsFilled, List.length_cons, ih, List.length_cons]

theorem isEmpty_stmtsFilled (hfill : ∀ loc path, fill loc path ≠ []) (ss : List Stmt) :
    (stmtsFilled fill ss).isEmpty = ss.isEmpty := by
  cases ss with
  | nil => rfl
  | cons s ss =>
    rw [stmtsFilled]
    split
    · simp [hfill]
    · rfl

end

/-- Every include stays. -/
def keepIncludes (loc : Loc) (path : String) : List Stmt := [.includeFile loc path]

theorem keepIncludes_ne (loc : Loc) (path : String) :
    keepIncludes loc path ≠ [] ∧ keepIncludes loc path ≠ [] :=
  ⟨List.cons_ne_nil _ _, List.cons_ne_nil _ _⟩

theorem keepIncludes_append (s : Stmt) (rest : List Stmt) :
    (match s.include? with
      | some (loc, path) => keepIncludes loc path
      | none => [s]) ++ rest = s :: rest := by
  cases s <;> rfl

theorem stmtsFilled_keepIncludes (ss : List Stmt) : stmtsFilled keepIncludes ss = ss := by
  apply stmtsFilled.induct (fun e => e.filled keepIncludes = e) (fun d => d.filled keepIncludes = d)
    (fun ss => stmtsFilled keepIncludes ss = ss) (fun s => s.filled keepIncludes = s)
    (fun es => exprsFilled keepIncludes es = es) (fun o => clauseHoleFilled keepIncludes o = o)
    (fun c => c.filled keepIncludes = c) (fun cs => casesFilled keepIncludes cs = cs)
    (fun c => c.filled keepIncludes = c) (fun o => holeFilled keepIncludes o = o)
    (fun o => stmtHoleFilled keepIncludes o = o) (fun ds => declaratorsFilled keepIncludes ds = ds)
    (fun d => d.filled keepIncludes = d) (fun n => n.filled keepIncludes = n)
    (fun o => nodeHoleFilled keepIncludes o = o) (fun r => r.filled keepIncludes = r)
    (fun ps => pairsFilled keepIncludes ps = ps) (fun p => pairFilled keepIncludes p = p)
    (fun es => holesFilled keepIncludes es = es)
  -- Each node is rebuilt from parts that stay; only a list of statements looks for includes.
  all_goals
    intros
    simp only [Expr.filled, exprsFilled, holeFilled, holesFilled, pairFilled, pairsFilled,
      Routine.filled, ClassDef.filled, Node.filled, nodeHoleFilled, Declarator.filled,
      declaratorsFilled, SwitchCase.filled, casesFilled, CatchClause.filled, clauseHoleFilled,
      Stmt.filled, stmtsFilled, stmtHoleFilled, keepIncludes_append, *]

end Adhoc
