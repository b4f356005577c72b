import Adhoc.Lowering.Tree
import Mathlib.Data.List.Forall2

namespace Adhoc

open List Emit

variable {R : Expr → ExprCode → Prop} {Q : Stmt → StmtCode → Prop} {cx : Context} {o : Option Expr}
  {n : Node}

def Node.Holds (E : Expr → Prop) (S : Stmt → Prop) : Node → Prop
  | .stmt s => S s
  | .expr e => E e

/-- The direct parts of an expression have the properties. Names of classes are no parts. -/
def Expr.Parts (E : Expr → Prop) (S : Stmt → Prop) : Expr → Prop
  | .ident .. | .literal .. | .importName .. | .yield .. | .selfRef .. => True
  | .function _ r | .method _ r | .arrow _ r => (∀ p ∈ r.params, E p) ∧ r.body.Holds E S
  | .call _ callee arguments => E callee ∧ ∀ a ∈ arguments, E a
  | .unary _ _ a | .update _ _ _ a | .rest _ a | .staticDecl _ a | .attributeDecl _ a
  | .await _ a | .spread _ a => E a
  | .binary _ _ a b | .logical _ _ a b | .element _ a b _ | .path _ a b | .attribute _ a b _
  | .selector _ a b | .assign _ _ a b | .assignPattern _ a b => E a ∧ E b
  | .array _ elements => ∀ e, some e ∈ elements → E e
  | .map _ entries => ∀ p ∈ entries, E p.1 ∧ E p.2
  | .arrayPattern _ es | .template _ _ es | .tagged _ es | .sequence _ es => ∀ e ∈ es, E e
  | .conditional _ a b c => E a ∧ E b ∧ E c
  | .classDef _ d => ∀ s ∈ d.body, S s

def Stmt.Parts (E : Expr → Prop) (S : Stmt → Prop) : Stmt → Prop
  | .classDef _ d => ∀ s ∈ d.body, S s
  | .function _ r | .method _ r => (∀ p ∈ r.params, E p) ∧ r.body.Holds E S
  | .forLoop _ init test update body =>
    (∀ n ∈ init, n.Holds E S) ∧ (∀ e ∈ test, E e) ∧ (∀ e ∈ update, E e) ∧ S body
  | .foreach _ left right body => left.Holds E S ∧ E right ∧ S body
  | .whileLoop _ test body | .doWhile _ body test => E test ∧ S body
  | .declare _ ds => ∀ d ∈ ds, (∀ e ∈ d.id, E e) ∧ ∀ e ∈ d.init, E e
  | .returnValue _ a => ∀ e ∈ a, E e
  | .ifElse _ test c a => E test ∧ S c ∧ ∀ s ∈ a, S s
  | .block _ body => ∀ s ∈ body, S s
  | .expression _ e | .require _ e | .throw _ e | .finalizer _ e | .delegate _ e => E e
  | .switch _ e cases => E e ∧ ∀ c ∈ cases, (∀ e ∈ c.test, E e) ∧ ∀ s ∈ c.consequent, S s
  | .labeled _ _ s => S s
  | .tryCatch _ b handler f =>
    S b ∧ (∀ c ∈ handler, S c.body) ∧ (∀ s ∈ f, S s) ∧ ∀ c ∈ handler, ∀ e ∈ c.param, E e
  | .moduleConstructor _ e s => E e ∧ S s
  | .print _ es => ∀ e ∈ es, E e
  | .importName .. | .continueLoop .. | .breakOut .. | .includeFile .. | .undef .. | .sourceFile ..
  | .empty .. => True

section

set_option linter.unusedSectionVars false

variable {E : Expr → Prop} {S : Stmt → Prop} (expr : ∀ e, Expr.Parts E S e → E e)
  (stmt : ∀ s, Stmt.Parts E S s → S s)
include expr stmt

mutual

theorem Expr.holds : ∀ e : Expr, E e
  | .ident _ _ | .literal _ _ | .importName _ _ _ _ | .yield _ | .selfRef _ => expr _ trivial
  | .function _ ⟨_, params, body⟩ | .method _ ⟨_, params, body⟩ | .arrow _ ⟨_, params, body⟩ =>
    expr _ ⟨exprsHold params, Node.holds body⟩
  | .call _ callee arguments => expr _ ⟨Expr.holds callee, exprsHold arguments⟩
  | .unary _ _ a | .update _ _ _ a | .rest _ a | .staticDecl _ a | .attributeDecl _ a | .await _ a
  | .spread _ a => expr _ (Expr.holds a)
  | .binary _ _ a b | .logical _ _ a b | .element _ a b _ | .path _ a b | .attribute _ a b _
  | .selector _ a b | .assign _ _ a b | .assignPattern _ a b =>
    expr _ ⟨Expr.holds a, Expr.holds b⟩
  | .array _ elements => expr _ (holesHold elements)
  | .map _ entries => expr _ (pairsHold entries)
  | .arrayPattern _ es | .template _ _ es | .tagged _ es | .sequence _ es => expr _ (exprsHold es)
  | .conditional _ a b c => expr _ ⟨Expr.holds a, Expr.holds b, Expr.holds c⟩
  | .classDef _ ⟨_, _, body, _⟩ => expr _ (stmtsHold body)

theorem exprsHold : ∀ es : List Expr, ∀ e ∈ es, E e
  | [] => fun _ h => nomatch h
  | e :: es => forall_mem_cons.2 ⟨Expr.holds e, exprsHold es⟩

theorem holeHolds : ∀ o : Option Expr, ∀ e ∈ o, E e
  | none => fun _ h => nomatch h
  | some e => fun _ h => Option.some.inj h ▸ Expr.holds e

theorem holesHold : ∀ es : List (Option Expr), ∀ e, some e ∈ es → E e
  | [] => fun _ h => nomatch h
  | o :: es => fun e h => (mem_cons.1 h).elim (fun h => holeHolds o e h.symm) (holesHold es e)

theorem pairHolds : ∀ p : Expr × Expr, E p.1 ∧ E p.2
  | (a, b) => ⟨Expr.holds a, Expr.holds b⟩

theorem pairsHold : ∀ ps : List (Expr × Expr), ∀ p ∈ ps, E p.1 ∧ E p.2
  | [] => fun _ h => nomatch h
  | p :: ps => forall_mem_cons.2 ⟨pairHolds p, pairsHold ps⟩

theorem Node.holds : ∀ n : Node, n.Holds E S
  | .stmt s => Stmt.holds s
  | .expr e => Expr.holds e

theorem nodeHoleHolds : ∀ o : Option Node, ∀ n ∈ o, n.Holds E S
  | none => fun _ h => nomatch h
  | some n => fun _ h => Option.some.inj h ▸ Node.holds n

theorem declaratorHolds : ∀ d : Declarator, (∀ e ∈ d.id, E e) ∧ ∀ e ∈ d.init, E e
  | ⟨_, id, init⟩ => ⟨holeHolds id, holeHolds init⟩

theorem declaratorsHold :
    ∀ ds : List Declarator, ∀ d ∈ ds, (∀ e ∈ d.id, E e) ∧ ∀ e ∈ d.init, E e
  | [] => fun _ h => nomatch h
  | d :: ds => forall_mem_cons.2 ⟨declaratorHolds d, declaratorsHold ds⟩

theorem caseHolds : ∀ c : SwitchCase, (∀ e ∈ c.test, E e) ∧ ∀ s ∈ c.consequent, S s
  | ⟨_, test, consequent⟩ => ⟨holeHolds test, stmtsHold consequent⟩

theorem casesHold :
    ∀ cs : List SwitchCase, ∀ c ∈ cs, (∀ e ∈ c.test, E e) ∧ ∀ s ∈ c.consequent, S s
  | [] => fun _ h => nomatch h
  | c :: cs => forall_mem_cons.2 ⟨caseHolds c, casesHold cs⟩

theorem clauseHoleHolds : ∀ o : Option CatchClause, ∀ c ∈ o, S c.body
  | none => fun _ h => nomatch h
  | some ⟨_, _, body⟩ => fun _ h => Option.some.inj h ▸ Stmt.holds body

theorem clauseParamHolds : ∀ o : Option CatchClause, ∀ c ∈ o, ∀ e ∈ c.param, E e
  | none => fun _ h => nomatch h
  | some ⟨_, param, _⟩ => fun _ h => Option.some.inj h ▸ holeHolds param

theorem Stmt.holds : ∀ s : Stmt, S s
  | .classDef _ ⟨_, _, body, _⟩ | .block _ body => stmt _ (stmtsHold body)
  | .function _ ⟨_, params, body⟩ | .method _ ⟨_, params, body⟩ =>
    stmt _ ⟨exprsHold params, Node.holds body⟩
  | .forLoop _ init test update body =>
    stmt _ ⟨nodeHoleHolds init, holeHolds test, holeHolds update, Stmt.holds body⟩
  | .foreach _ left right body => stmt _ ⟨Node.holds left, Expr.holds right, Stmt.holds body⟩
  | .whileLoop _ test body | .doWhile _ body test => stmt _ ⟨Expr.holds test, Stmt.holds body⟩
  | .declare _ ds => stmt _ (declaratorsHold ds)
  | .returnValue _ a => stmt _ (holeHolds a)
  | .ifElse _ test c a => stmt _ ⟨Expr.holds test, Stmt.holds c, stmtHoleHolds a⟩
  | .expression _ e | .require _ e | .throw _ e | .finalizer _ e | .delegate _ e =>
    stmt _ (Expr.holds e)
  | .switch _ e cases => stmt _ ⟨Expr.holds e, casesHold cases⟩
  | .labeled _ _ s => stmt _ (Stmt.holds s)
  | .tryCatch _ b handler f =>
    stmt _ ⟨Stmt.holds b, clauseHoleHolds handler, stmtHoleHolds f, clauseParamHolds handler⟩
  | .moduleConstructor _ e s => stmt _ ⟨Expr.holds e, Stmt.holds s⟩
  | .print _ es => stmt _ (exprsHold es)
  | .importName _ _ _ _ | .continueLoop _ _ | .breakOut _ _ | .includeFile _ _ | .undef _ _
  | .sourceFile _ _ | .empty _ => stmt _ trivial

theorem stmtsHold : ∀ ss : List Stmt, ∀ s ∈ ss, S s
  | [] => fun _ h => nomatch h
  | s :: ss => forall_mem_cons.2 ⟨Stmt.holds s, stmtsHold ss⟩

theorem stmtHoleHolds : ∀ o : Option Stmt, ∀ s ∈ o, S s
  | none => fun _ h => nomatch h
  | some s => fun _ h => Option.some.inj h ▸ Stmt.holds s

end

end

theorem Expr.expr_code (cx : Context) (e : Expr) : (e.code cx).expr = e := by
  cases e
  case unary loc op a => cases op <;> rfl
  all_goals rfl

theorem eq_map_of_cons {α β : Type} {f : List α → List β} {g : α → β} (hnil : f [] = [])
    (hcons : ∀ a l, f (a :: l) = g a :: f l) (l : List α) : f l = l.map g := by
  induction l with
  | nil => exact hnil
  | cons a l ih => rw [hcons, ih, map_cons]

theorem exprCodes_eq (cx : Context) (es : List Expr) : exprCodes cx es = es.map (Expr.code cx) :=
  eq_map_of_cons rfl (fun _ _ => rfl) es

theorem holeCode_eq (cx : Context) (o : Option Expr) : holeCode cx o = o.map (Expr.code cx) := by
  cases o <;> rfl

theorem holeCode_eq_some {c : ExprCode} :
    holeCode cx o = some c ↔ ∃ e, o = some e ∧ e.code cx = c := by
  rw [holeCode_eq, Option.map_eq_some_iff]

theorem stmtHoleCode_eq_some {o : Option Stmt} {c : StmtCode} :
    stmtHoleCode cx o = some c ↔ ∃ s, o = some s ∧ s.code cx = c := by
  cases o <;> simp [stmtHoleCode]

theorem holeCodes_eq (cx : Context) (es : List (Option Expr)) :
    holeCodes cx es = es.map (Option.map (Expr.code cx)) :=
  eq_map_of_cons rfl (fun o l => congrArg (· :: holeCodes cx l) (holeCode_eq cx o)) es

theorem pairCodes_eq (cx : Context) (es : List (Expr × Expr)) :
    pairCodes cx es = es.map fun p => (p.1.code cx, p.2.code cx) := by
  refine eq_map_of_cons rfl ?_ es
  rintro ⟨key, value⟩ es
  rfl

theorem stmtCodes_eq (cx : Context) (ss : List Stmt) : stmtCodes cx ss = ss.map (Stmt.code cx) :=
  eq_map_of_cons rfl (fun _ _ => rfl) ss

theorem declaratorCodes_eq (cx : Context) (ds : List Declarator) :
    declaratorCodes cx ds = ds.map (Declarator.code cx) :=
  eq_map_of_cons rfl (fun _ _ => rfl) ds

theorem caseCodes_eq (cx : Context) (cs : List SwitchCase) :
    caseCodes cx cs = cs.map (SwitchCase.code cx) :=
  eq_map_of_cons rfl (fun _ _ => rfl) cs

section

variable (R : Expr → ExprCode → Prop) (Q : Stmt → StmtCode → Prop)

inductive NodeRel : Node → NodeCode → Prop
  | stmt {s c} : Q s c → NodeRel (.stmt s) (.stmt c)
  | expr {e c} : R e c → NodeRel (.expr e) (.expr c)

inductive DeclaratorRel : Declarator → DeclaratorCode → Prop
  | intro {loc id init ci cv} : Option.Rel R id ci → Option.Rel R init cv →
    DeclaratorRel ⟨loc, id, init⟩ ⟨loc, ci, cv⟩

inductive CaseRel : SwitchCase → CaseCode → Prop
  | intro {loc test stmts ct cs} : Option.Rel R test ct → Forall₂ Q stmts cs →
    CaseRel ⟨loc, test, stmts⟩ ⟨loc, ct, cs⟩

inductive ClauseRel : CatchClause → CatchCode → Prop
  | intro {loc param body c} : Q body c → ClauseRel ⟨loc, param, body⟩ ⟨loc, param, c⟩

end

namespace NodeRel

variable {P : Node → Emit Unit → Prop} {c : NodeCode}

theorem forInit (h : NodeRel R Q n c)
    (hstmt : ∀ s c x, Q s c → c.declares? = some x → P (.stmt s) (x false))
    (hexpr : ∀ e c, R e c → P (.expr e) c.value)
    (hreject : ∀ n loc cause, P n (reject loc cause)) : P n (forInit (some c)) := by
  cases h with
  | @stmt s c h =>
    simp only [forInit]
    cases hd : c.declares? with
    | some declares => exact hstmt s c declares h hd
    | none => exact hreject _ _ _
  | @expr e c h =>
    simp only [forInit]
    split
    all_goals first | exact hexpr e c h | exact hreject _ _ _

theorem foreachLeft (h : NodeRel R Q n c)
    (hstmt : ∀ s c x, Q s c → c.declares? = some x → P (.stmt s) (x true))
    (hexpr : ∀ e c x, R e c → c.pattern? = some x → P (.expr e) (x false))
    (hreject : ∀ n loc cause, P n (reject loc cause)) : P n (foreachLeft c) := by
  cases h with
  | @stmt s c h =>
    simp only [foreachLeft]
    cases hd : c.declares? with
    | some declares => exact hstmt s c declares h hd
    | none => exact hreject _ _ _
  | @expr e c h =>
    simp only [foreachLeft]
    cases hp : c.pattern? with
    | some pattern => exact hexpr e c pattern h hp
    | none => exact hreject _ _ _

theorem block_ok {body : Emit Unit} {s t : Session} (h : NodeRel R Q n c)
    (hr : NodeCode.blockBody c s = .ok (body, t)) :
    t = s ∧ ∃ b d, n = .stmt b ∧ Q b d ∧ d.block? = some body := by
  cases h with
  | @stmt b d h =>
    simp only [NodeCode.blockBody] at hr
    cases hb : d.block? <;> rw [hb] at hr <;> cases hr
    exact ⟨rfl, b, d, rfl, h, hb⟩
  | expr => cases hr

end NodeRel

theorem exprCodes_forall₂ {es : List Expr} (h : ∀ e ∈ es, R e (e.code cx)) :
    Forall₂ R es (exprCodes cx es) := by
  rw [exprCodes_eq, forall₂_map_right_iff, forall₂_same]
  exact h

theorem take_exprCodes (n : Nat) (es : List Expr) :
    (exprCodes cx es).take n = exprCodes cx (es.take n) := by
  rw [exprCodes_eq, exprCodes_eq, map_take]

theorem holeCode_rel (h : ∀ e ∈ o, R e (e.code cx)) : Option.Rel R o (holeCode cx o) := by
  cases o with
  | none => exact .none
  | some e => exact .some (h e rfl)

theorem holeCodes_forall₂ {es : List (Option Expr)} (h : ∀ e, some e ∈ es → R e (e.code cx)) :
    Forall₂ (Option.Rel R) es (holeCodes cx es) := by
  rw [holeCodes_eq, forall₂_map_right_iff, forall₂_same]
  exact fun o ho => holeCode_eq cx o ▸ holeCode_rel fun e he => h e (he ▸ ho)

theorem pairCodes_forall₂ {es : List (Expr × Expr)}
    (h : ∀ p ∈ es, R p.1 (p.1.code cx) ∧ R p.2 (p.2.code cx)) :
    Forall₂ (fun e c => R e.1 c.1 ∧ R e.2 c.2) es (pairCodes cx es) := by
  rw [pairCodes_eq, forall₂_map_right_iff, forall₂_same]
  exact h

theorem stmtCodes_forall₂ {ss : List Stmt} (h : ∀ s ∈ ss, Q s (s.code cx)) :
    Forall₂ Q ss (stmtCodes cx ss) := by
  rw [stmtCodes_eq, forall₂_map_right_iff, forall₂_same]
  exact h

theorem stmtHoleCode_rel {o : Option Stmt} (h : ∀ s ∈ o, Q s (s.code cx)) :
    Option.Rel Q o (stmtHoleCode cx o) := by
  cases o with
  | none => exact .none
  | some s => exact .some (h s rfl)

theorem declaratorCodes_forall₂ {ds : List Declarator} (h : ∀ d ∈ ds,
      (∀ e ∈ d.id, R e (e.code cx)) ∧ ∀ e ∈ d.init, R e (e.code cx)) :
    Forall₂ (DeclaratorRel R) ds (declaratorCodes cx ds) := by
  rw [declaratorCodes_eq, forall₂_map_right_iff, forall₂_same]
  rintro ⟨loc, id, init⟩ hd
  exact .intro (holeCode_rel (h _ hd).1) (holeCode_rel (h _ hd).2)

theorem caseCodes_forall₂ {cs : List SwitchCase} (h : ∀ c ∈ cs,
      (∀ e ∈ c.test, R e (e.code cx)) ∧ ∀ s ∈ c.consequent, Q s (s.code cx)) :
    Forall₂ (CaseRel R Q) cs (caseCodes cx cs) := by
  rw [caseCodes_eq, forall₂_map_right_iff, forall₂_same]
  rintro ⟨loc, test, stmts⟩ hc
  exact .intro (holeCode_rel (h _ hc).1) (stmtCodes_forall₂ (h _ hc).2)

theorem nodeCode_rel (h : n.Holds (fun e => R e (e.code cx)) fun s => Q s (s.code cx)) :
    NodeRel R Q n (n.code cx) := by
  cases n with
  | stmt s => exact .stmt h
  | expr e => exact .expr h

theorem nodeHoleCode_rel {o : Option Node}
    (h : ∀ n ∈ o, n.Holds (fun e => R e (e.code cx)) fun s => Q s (s.code cx)) :
    Option.Rel (NodeRel R Q) o (nodeHoleCode cx o) := by
  cases o with
  | none => exact .none
  | some n => exact .some (nodeCode_rel (h n rfl))

theorem clauseHoleCode_rel {o : Option CatchClause} (h : ∀ c ∈ o, Q c.body (c.body.code cx)) :
    Option.Rel (ClauseRel Q) o (clauseHoleCode cx o) := by
  cases o with
  | none => exact .none
  | some c =>
    obtain ⟨loc, param, body⟩ := c
    exact .some (.intro (h _ rfl))

end Adhoc
