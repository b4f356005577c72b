import Adhoc.Proofs.TreeInduction

namespace Adhoc

open List

section

-- Where what stands at a position is moved to.
variable (move : Loc → Loc)

def Quasi.moved (q : Quasi) : Quasi := { q with loc := move q.loc }

mutual

def Expr.moved : Expr → Expr
  | .ident loc name => .ident (if name = "__LINE__" then loc else move loc) name
  | .function loc r => .function (move loc) r.moved
  | .method loc r => .method (move loc) r.moved
  | .arrow loc r => .arrow (move loc) r.moved
  | .call loc callee arguments => .call (move loc) callee.moved (exprsMoved arguments)
  | .unary loc op argument => .unary (move loc) op argument.moved
  | .update loc op before argument => .update (move loc) op before argument.moved
  | .binary loc op left right => .binary (move loc) op left.moved right.moved
  | .logical loc op left right => .logical (move loc) op left.moved right.moved
  | .literal loc value => .literal (move loc) value
  | .array loc elements => .array (move loc) (holesMoved elements)
  | .map loc entries => .map (move loc) (pairsMoved entries)
  | .element loc object property optional =>
    .element (move loc) object.moved property.moved optional
  | .path loc object property => .path (move loc) object.moved property.moved
  | .attribute loc object property optional =>
    .attribute (move loc) object.moved property.moved optional
  | .selector loc object property => .selector (move loc) object.moved property.moved
  | .assign loc op left right => .assign (move loc) op left.moved right.moved
  | .assignPattern loc left right => .assignPattern (move loc) left.moved right.moved
  | .arrayPattern loc elements => .arrayPattern (move loc) (exprsMoved elements)
  | .rest loc argument => .rest (move loc) argument.moved
  | .conditional loc test consequent alternate =>
    .conditional (move loc) test.moved consequent.moved alternate.moved
  | .template loc quasis expressions =>
    .template (move loc) (quasis.map (Quasi.moved move)) (exprsMoved expressions)
  | .tagged loc parts => .tagged (move loc) (exprsMoved parts)
  | .sequence loc expressions => .sequence (move loc) (exprsMoved expressions)
  | .staticDecl loc declaration => .staticDecl (move loc) declaration.moved
  | .attributeDecl loc declaration => .attributeDecl (move loc) declaration.moved
  | .classDef loc definition => .classDef (move loc) definition.moved
  | .importName loc specifiers target asName =>
    .importName (move loc) (exprsMoved specifiers) target asName
  | .yield loc => .yield (move loc)
  | .await loc argument => .await (move loc) argument.moved
  | .spread loc argument => .spread (move loc) argument.moved
  | .selfRef loc => .selfRef (move loc)

def exprsMoved : List Expr → List Expr
  | [] => []
  | e :: rest => e.moved :: exprsMoved rest

def holeMoved : Option Expr → Option Expr
  | none => none
  | some e => some e.moved

def holesMoved : List (Option Expr) → List (Option Expr)
  | [] => []
  | e :: rest => holeMoved e :: holesMoved rest

def pairMoved : Expr × Expr → Expr × Expr
  | (key, value) => (key.moved, value.moved)

def pairsMoved : List (Expr × Expr) → List (Expr × Expr)
  | [] => []
  | p :: rest => pairMoved p :: pairsMoved rest

def Routine.moved : Routine → Routine
  | ⟨id, params, body⟩ => ⟨holeMoved id, exprsMoved params, body.moved⟩

def ClassDef.moved : ClassDef → ClassDef
  | ⟨id, superClass, body, isModule⟩ => ⟨id.moved, holeMoved superClass, stmtsMoved body, isModule⟩

def Node.moved : Node → Node
  | .stmt s => .stmt s.moved
  | .expr e => .expr e.moved

def nodeHoleMoved : Option Node → Option Node
  | none => none
  | some n => some n.moved

def Declarator.moved : Declarator → Declarator
  | ⟨loc, id, init⟩ => ⟨move loc, holeMoved id, holeMoved init⟩

def declaratorsMoved : List Declarator → List Declarator
  | [] => []
  | d :: rest => d.moved :: declaratorsMoved rest

def SwitchCase.moved : SwitchCase → SwitchCase
  | ⟨loc, test, consequent⟩ => ⟨move loc, holeMoved test, stmtsMoved consequent⟩

def casesMoved : List SwitchCase → List SwitchCase
  | [] => []
  | c :: rest => c.moved :: casesMoved rest

def CatchClause.moved : CatchClause → CatchClause
  | ⟨loc, param, body⟩ => ⟨move loc, holeMoved param, body.moved⟩

def clauseHoleMoved : Option CatchClause → Option CatchClause
  | none => none
  | some c => some c.moved

def Stmt.moved : Stmt → Stmt
  | .classDef loc definition => .classDef (move loc) definition.moved
  | .function loc r => .function (move loc) r.moved
  | .method loc r => .method (move loc) r.moved
  | .forLoop loc init test update body =>
    .forLoop (move loc) (nodeHoleMoved init) (holeMoved test) (holeMoved update) body.moved
  | .foreach loc left right body => .foreach (move loc) left.moved right.moved body.moved
  | .whileLoop loc test body => .whileLoop (move loc) test.moved body.moved
  | .doWhile loc body test => .doWhile (move loc) body.moved test.moved
  | .declare loc declarators => .declare (move loc) (declaratorsMoved declarators)
  | .returnValue loc argument => .returnValue (move loc) (holeMoved argument)
  | .importName loc specifiers target asName =>
    .importName (move loc) (exprsMoved specifiers) target asName
  | .ifElse loc test consequent alternate =>
    .ifElse (move loc) test.moved consequent.moved (stmtHoleMoved alternate)
  | .block loc body => .block (move loc) (stmtsMoved body)
  | .expression loc value => .expression (move loc) value.moved
  | .switch loc discriminant cases => .switch (move loc) discriminant.moved (casesMoved cases)
  | .continueLoop loc label => .continueLoop (move loc) label
  | .breakOut loc label => .breakOut (move loc) label
  | .labeled loc label body => .labeled (move loc) label body.moved
  | .includeFile loc path => .includeFile (move loc) path
  | .require loc argument => .require (move loc) argument.moved
  | .throw loc argument => .throw (move loc) argument.moved
  | .finalizer loc body => .finalizer (move loc) body.moved
  | .tryCatch loc block handler finalizer =>
    .tryCatch (move loc) block.moved (clauseHoleMoved handler) (stmtHoleMoved finalizer)
  | .undef loc name => .undef (move loc) name
  | .sourceFile loc path => .sourceFile (move loc) path
  | .moduleConstructor loc id body => .moduleConstructor (move loc) id.moved body.moved
  | .print loc arguments => .print (move loc) (exprsMoved arguments)
  | .delegate loc id => .delegate (move loc) id.moved
  | .empty loc => .empty (move loc)

def stmtsMoved : List Stmt → List Stmt
  | [] => []
  | s :: rest => s.moved :: stmtsMoved rest

def stmtHoleMoved : Option Stmt → Option Stmt
  | none => none
  | some s => some s.moved

end

end

def Program.moved (move : Loc → Loc) (p : Program) : Program where
  body := stmtsMoved move p.body

section

variable {move : Loc → Loc}

@[simp] theorem Expr.kind_moved (e : Expr) : (e.moved move).kind = e.kind := by cases e <;> rfl

@[simp] theorem Expr.ident?_moved (e : Expr) : (e.moved move).ident? = e.ident? := by
  cases e <;> rfl

theorem Expr.pathParts_moved (move : Loc → Loc) (e : Expr) : (e.moved move).pathParts = e.pathParts := by
  induction e using Expr.pathParts.induct with
  | case1 loc object property ih =>
    simp only [Expr.moved, Expr.pathParts, property.ident?_moved]
    cases object <;> simp_all [Expr.moved]
  | case2 e h => cases e <;> simp_all [Expr.moved, Expr.pathParts]

@[simp] theorem Expr.pathName?_moved (e : Expr) : (e.moved move).pathName? = e.pathName? := by
  cases e with
  | path loc object property =>
    have hparts := pathParts_moved move (.path loc object property)
    simp only [Expr.moved, pathName?] at hparts ⊢
    rw [hparts]
  | _ => rfl

@[simp] theorem Emit.isTrue_moved (e : Expr) : isTrue (e.moved move) = isTrue e := by
  cases e with
  | literal loc value =>
    cases value with
    | bool b => cases b <;> rfl
    | _ => rfl
  | _ => rfl

@[simp] theorem Emit.leavesValue_moved (e : Expr) :
    leavesValue (e.moved move) = leavesValue e := by
  cases e with
  | function loc r =>
    obtain ⟨id, params, body⟩ := r
    cases id <;> rfl
  | _ => rfl

theorem length_exprsMoved (es : List Expr) : (exprsMoved move es).length = es.length := by
  induction es with
  | nil => rfl
  | cons e es ih => rw [exprsMoved, length_cons, ih, length_cons]

theorem stmtsMoved_append (ss ss' : List Stmt) :
    stmtsMoved move (ss ++ ss') = stmtsMoved move ss ++ stmtsMoved move ss' := by
  induction ss with
  | nil => rfl
  | cons s ss ih => rw [cons_append, stmtsMoved, ih, stmtsMoved, cons_append]

theorem isEmpty_stmtsMoved (ss : List Stmt) : (stmtsMoved move ss).isEmpty = ss.isEmpty := by
  cases ss <;> rfl

end

theorem Quasi.moved_id : Quasi.moved id = id := rfl

theorem stmtsMoved_id (ss : List Stmt) : stmtsMoved id ss = ss := by
  apply stmtsMoved.induct (fun e => e.moved id = e) (fun d => d.moved id = d)
    (fun ss => stmtsMoved id ss = ss) (fun s => s.moved id = s)
    (fun o => clauseHoleMoved id o = o) (fun c => c.moved id = c) (fun o => holeMoved id o = o)
    (fun cs => casesMoved id cs = cs) (fun c => c.moved id = c) (fun o => stmtHoleMoved id o = o)
    (fun es => exprsMoved id es = es) (fun ds => declaratorsMoved id ds = ds)
    (fun d => d.moved id = d) (fun n => n.moved id = n)
    (fun o => nodeHoleMoved id o = o) (fun r => r.moved id = r)
    (fun ps => pairsMoved id ps = ps) (fun p => pairMoved id p = p)
    (fun es => holesMoved id es = es)
  all_goals
    intros
    simp only [Expr.moved, exprsMoved, holeMoved, holesMoved, pairMoved, pairsMoved,
      Routine.moved, ClassDef.moved, Node.moved, nodeHoleMoved, Declarator.moved,
      declaratorsMoved, SwitchCase.moved, casesMoved, CatchClause.moved, clauseHoleMoved,
      Stmt.moved, stmtsMoved, stmtHoleMoved, Quasi.moved_id, map_id, id, ite_self, *]

theorem Program.moved_id (p : Program) : p.moved id = p := by
  rw [Program.moved, stmtsMoved_id]

end Adhoc
