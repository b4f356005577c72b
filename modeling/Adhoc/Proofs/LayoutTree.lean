import Adhoc.Proofs.JudgedTree
import Adhoc.Proofs.LayoutStmt

namespace Adhoc

open Emit List Option

variable {lib : Library} {v : Version} {loc : Loc} {cx : Context} {n : Node} {s : Stmt}

section

theorem StmtLaid.ofRun {run : Emit Unit} (h : Lays lib v [.stmt s] run) :
    StmtLaid lib v s (.ofRun s run) where
  stmt := rfl
  run := h
  block _ hb := nomatch hb
  loop _ hl := nomatch hl
  declares _ hd := nomatch hd

theorem StmtLaid.ofLoop {loop : Option String → Emit Unit}
    (h : ∀ label, LaysLoop lib v label s (loop label)) : StmtLaid lib v s (.ofLoop s loop) :=
  { StmtLaid.ofRun (h none).lays with
    loop := fun _ hl label => some.inj hl ▸ h label }

end

theorem ofValue_laid {e : Expr} {value : Emit Unit} (he : e.returnedUses = [.expr .value e])
    (h : Lays lib v [.expr e] value) :
    ExprLaid lib v e (.ofValue v e value) := .ofValue he fun _ _ => h

namespace QuietUpdates

variable {p q : Part}

theorem part (h : QuietUpdates lib v p)
    (hq : q ∈ p.parts v := by simp [Part.parts, Expr.parts, Stmt.parts]) : QuietUpdates lib v q :=
  fun _ _ _ _ _ ho => h (.part hq ho)

theorem body (h : QuietUpdates lib v p) (hn : p.body? = some n) :
    QuietUpdates lib v n.part := fun _ _ _ _ _ ho => h (.body trivial hn ho)

theorem included {path : String} {program : Program}
    (h : QuietUpdates lib v (.stmt (.includeFile loc path))) (hi : lib.Includes path program)
    (hs : s ∈ program.body) : QuietUpdates lib v (.stmt s) :=
  fun _ _ _ _ _ ho => h (.included hi hs ho)

theorem update {init : Option Node} {test : Option Expr} {update : Expr} {body : Stmt}
    (h : QuietUpdates lib v (.stmt (.forLoop loc init test (some update) body))) :
    ¬ Continues lib v (.expr update) := h (.here _)

end QuietUpdates

section

variable (lib : Library) (cx : Context)

abbrev Expr.Laid (e : Expr) : Prop := ExprLaid lib cx.version e (e.code cx)

abbrev Stmt.Laid (s : Stmt) : Prop := StmtLaid lib cx.version s (s.code cx)

end

section

theorem classDef_laid {d : ClassDef} (h : ∀ s ∈ d.body, s.Laid lib cx) :
    (Expr.classDef loc d).Laid lib cx := by
  obtain ⟨id, superClass, body, isModule⟩ := d
  exact { ofValue_laid (e := .classDef loc ⟨id, superClass, body, isModule⟩) rfl
      (.node rfl (classDef_lays loc false (stmtCodes_forall₂ h))) with
    asStatic := fun _ _ => Lays.node rfl (.node rfl (staticClass_lays loc (stmtCodes_forall₂ h))) }

end

section

variable (cx : Context) (folder : Option String)

def Expr.IsLaid (e : Expr) : Prop :=
  QuietUpdates (cx.library folder) cx.version (.expr e) → e.Laid (cx.library folder) cx

def Stmt.IsLaid (s : Stmt) : Prop :=
  QuietUpdates (cx.library folder) cx.version (.stmt s) → s.Laid (cx.library folder) cx

end

section

variable {folder : Option String} {p : Part}

theorem exprs_laid {es : List Expr} (hq : QuietUpdates (cx.library folder) cx.version p)
    (hp : ∀ e ∈ es, Part.expr e ∈ p.parts cx.version) (h : ∀ e ∈ es, e.IsLaid cx folder) :
    ∀ e ∈ es, e.Laid (cx.library folder) cx :=
  fun e he => h e he (hq.part (hp e he))

theorem stmts_laid {ss : List Stmt} (hq : QuietUpdates (cx.library folder) cx.version p)
    (hp : ∀ s ∈ ss, Part.stmt s ∈ p.parts cx.version) (h : ∀ s ∈ ss, s.IsLaid cx folder) :
    ∀ s ∈ ss, s.Laid (cx.library folder) cx :=
  fun s hs => h s hs (hq.part (hp s hs))

theorem node_laid (hq : QuietUpdates (cx.library folder) cx.version n.part)
    (h : n.Holds (Expr.IsLaid cx folder) (Stmt.IsLaid cx folder)) :
    NodeLaid (cx.library folder) cx.version n (n.code cx) := by
  cases n with
  | stmt s => exact .stmt (h hq)
  | expr e => exact .expr (h hq)

theorem Expr.isLaid_of_parts (e : Expr)
    (h : e.Parts (Expr.IsLaid cx folder) (Stmt.IsLaid cx folder)) : e.IsLaid cx folder := by
  intro hq
  refine Expr.judged e (fun q hmem => ?_) fun hspecial => ?_
  · have hpart := e.parts_hold h q hmem
    cases q with
    | expr e => exact hpart (hq.part hmem)
    | stmt s => trivial
  cases e with
  | function loc r =>
    obtain ⟨id, params, body⟩ := r
    have hparams := exprCodes_forall₂ (exprs_laid hq (fun e he => mem_map_of_mem he) h.1)
    have hbody := node_laid (hq.body rfl) h.2
    refine ofValue_laid rfl (.ite ?_ ?_)
    · exact subroutine_lays loc false rfl rfl hparams (exprCodes_declare _ _) hbody
    · exact closure_lays loc false rfl rfl hparams (exprCodes_declare _ _) hbody
  | method loc r | arrow loc r =>
    obtain ⟨id, params, body⟩ := r
    have hparams := exprCodes_forall₂ (exprs_laid hq (fun e he => mem_map_of_mem he) h.1)
    exact ofValue_laid rfl (closure_lays loc _ rfl rfl hparams (exprCodes_declare _ _)
      (node_laid (hq.body rfl) h.2))
  | logical loc op left right =>
    exact ofValue_laid rfl (.node rfl (logical_lays loc op (h.1 hq.part) (h.2 hq.part)))
  | conditional loc a b c =>
    exact ofValue_laid rfl (.node rfl
      (conditional_lays (h.1 hq.part) (h.2.1 hq.part) (h.2.2 hq.part)))
  | classDef loc d => exact classDef_laid (stmts_laid hq (fun s hs => mem_map_of_mem hs) h)
  | importName loc specifiers target asName =>
    exact ofValue_laid rfl (.node rfl (.straight (importName_straight _ _ _ _)))
  | yield loc => exact ofValue_laid rfl (.node rfl (.straight (yield_straight _)))
  | await loc e =>
    refine ofValue_laid rfl (await_lays loc (h ?_))
    cases e with
    | call loc' callee arguments => exact hq.body rfl
    | _ => exact hq.part mem_cons_self
  | selfRef loc => exact ofValue_laid rfl (.node rfl (.straight (selfValue_straight _)))
  | _ => cases hspecial

/-- The code of a statement is laid out if the codes of its parts are, and included files are. -/
theorem Stmt.isLaid_of_parts (hfollow : ∀ path program, (cx.library folder).Includes path program →
      (∀ s ∈ program.body, QuietUpdates (cx.library folder) cx.version (.stmt s)) →
      Lays (cx.library folder) cx.version (program.body.map .stmt) (cx.follow program.body))
    (s : Stmt) (h : s.Parts (Expr.IsLaid cx folder) (Stmt.IsLaid cx folder)) :
    s.IsLaid cx folder := by
  intro hq
  cases s with
  | classDef loc d =>
    obtain ⟨id, superClass, body, isModule⟩ := d
    have hbody := stmts_laid hq (fun s hs => mem_map_of_mem hs) h
    exact .ofRun (.node rfl (classDef_lays loc false (stmtCodes_forall₂ hbody)))
  | function loc r =>
    obtain ⟨id, params, body⟩ := r
    refine .ofRun ?_
    cases id with
    | none => exact .node rfl (.pure ())
    | some id =>
      have hparams := exprCodes_forall₂ (exprs_laid hq (fun e he => mem_map_of_mem he) h.1)
      exact subroutine_lays loc false rfl rfl hparams (exprCodes_declare _ _)
        (node_laid (hq.body rfl) h.2)
  | method loc r =>
    obtain ⟨id, params, body⟩ := r
    have hparams := exprCodes_forall₂ (exprs_laid hq (fun e he => mem_map_of_mem he) h.1)
    exact .ofRun (subroutine_lays loc true rfl rfl hparams (exprCodes_declare _ _)
      (node_laid (hq.body rfl) h.2))
  | forLoop loc init test update body =>
    have hinit : Rel (NodeLaid (cx.library folder) cx.version) init (nodeHoleCode cx init) := by
      cases init with
      | none => exact .none
      | some n => exact .some (node_laid hq.part (h.1 n rfl))
    refine .ofLoop (forLoop_lays hinit (holeCode_rel fun e he => h.2.1 e he (hq.part ?_))
      (holeCode_rel fun e he => h.2.2.1 e he (hq.part ?_)) (h.2.2.2 hq.part) fun e he => ?_)
    · simp [Part.parts, Stmt.parts, mem_def.1 he]
    · simp [Part.parts, Stmt.parts, mem_def.1 he]
    · obtain rfl := mem_def.1 he
      exact hq.update
  | foreach loc left right body =>
    exact .ofLoop (foreach_lays (node_laid hq.part h.1) (h.2.1 hq.part) (h.2.2 hq.part))
  | whileLoop loc test body =>
    exact .ofLoop (whileLoop_lays (h.1 hq.part) (h.2 hq.part))
  | doWhile loc body test =>
    exact .ofLoop (doWhile_lays (h.1 hq.part) (h.2 hq.part))
  | declare loc ds =>
    have hds : Forall₂ (DeclaratorRel (ExprLaid (cx.library folder) cx.version)) ds
        (declaratorCodes cx ds) := declaratorCodes_forall₂ fun d hd =>
      ⟨fun e he => (h _ hd).1 e he
          (hq.part (mem_flatMap.2 ⟨_, hd, Declarator.mem_parts _ _ (.inl he)⟩)),
        fun e he => (h _ hd).2 e he
          (hq.part (mem_flatMap.2 ⟨_, hd, Declarator.mem_parts _ _ (.inr he)⟩))⟩
    have hdeclares := fun fromStack => Lays.node (p := .stmt (.declare loc ds)) rfl
      (declare_lays fromStack hds)
    exact { StmtLaid.ofRun (hdeclares false) with
      declares := fun _ hd fromStack => some.inj hd ▸ hdeclares fromStack }
  | returnValue loc argument =>
    refine .ofRun (.node rfl (returnValue_lays (holeCode_rel fun e he => h e he (hq.part ?_))))
    exact mem_flatMap.2 ⟨e, mem_toList.2 he, e.mem_returnedParts⟩
  | importName loc specifiers target asName =>
    exact .ofRun (.node rfl (.straight (importName_straight _ _ _ _)))
  | ifElse loc test consequent alternate =>
    refine .ofRun (.node rfl (ifElse_lays (h.1 hq.part) (h.2.1 hq.part)
      (stmtHoleCode_rel fun s hs => h.2.2 s hs (hq.part ?_))))
    simp [Part.parts, Stmt.parts, mem_def.1 hs]
  | block loc stmts =>
    have hstmts := stmts_laid hq (fun s hs => mem_map_of_mem hs) h
    have hinside := Lays.node (p := .stmt (.block loc stmts)) rfl
      (body_lays cx.logsExceptions (stmtCodes_forall₂ hstmts))
    exact { StmtLaid.ofRun (.scope rfl hinside) with
      block := fun _ hb => some.inj hb ▸ hinside }
  | expression loc e =>
    exact .ofRun (.node rfl (expressionStatement_lowers (h hq.part)))
  | switch loc discriminant cases =>
    refine .ofRun (switch_lays (h.1 hq.part) (caseCodes_forall₂ fun c hc =>
      ⟨fun e he => (h.2 _ hc).1 e he (hq.part ?_), fun s hs => (h.2 _ hc).2 s hs (hq.part ?_)⟩))
    · refine mem_append_left _ (mem_cons_of_mem _ (mem_map_of_mem ?_))
      exact mem_filterMap.2 ⟨_, hc, he⟩
    · refine mem_append_right _ (mem_map_of_mem ?_)
      exact mem_flatMap.2 ⟨_, hc, hs⟩
  | continueLoop loc label => exact .ofRun continueLoop_lays
  | breakOut loc label => exact .ofRun breakOut_lays
  | labeled loc label body => exact .ofRun (labeled_lays (h hq.part))
  | includeFile loc path =>
    exact .ofRun (includeFile_lays fun program hi => hfollow path program hi fun s hs =>
      hq.included hi hs)
  | require loc e | throw loc e =>
    exact .ofRun (.node rfl (.first (h hq.part).value fun _ => .emit rfl rfl))
  | finalizer loc e => exact .ofRun (.node rfl (finalizer_lays (h hq.part)))
  | tryCatch loc tried handler last =>
    have hhandler : Rel (ClauseLaid (cx.library folder) cx.version) handler
        (clauseHoleCode cx handler) := clauseHoleCode_rel fun c hc =>
      h.2.1 c hc (hq.part (by simp [Part.parts, Stmt.parts, mem_def.1 hc]))
    refine .ofRun (.node rfl (tryCatch_lays (h.1 hq.part) hhandler
      (stmtHoleCode_rel fun s hs => h.2.2.1 s hs (hq.part ?_))))
    simp [Part.parts, Stmt.parts, mem_def.1 hs]
  | undef loc path => exact .ofRun (.node rfl (.straight (undef_straight _ _)))
  | sourceFile loc path => exact .ofRun (.node rfl (.straight (sourceFile_straight _)))
  | moduleConstructor loc e body =>
    exact .ofRun (.node rfl (moduleConstructor_lays (h.1 hq.part) (h.2 hq.part)))
  | print loc es =>
    have hes := exprs_laid hq (fun e he => mem_map_of_mem he) h
    exact .ofRun (.node rfl (print_lays (exprCodes_forall₂ hes)))
  | delegate loc id => exact .ofRun (.node rfl (.straight (delegate_straight _ _)))
  | empty loc => exact .ofRun (.node rfl (.pure ()))

end

end Adhoc
