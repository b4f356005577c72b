import Adhoc.Proofs.Compilation
import Adhoc.Proofs.JudgedStmt

namespace Adhoc

open Emit

section

variable {v : Version} {logs : Bool} {J : StmtJudgment v logs} {s : Stmt} {run : Emit Unit}

theorem StmtJudged.ofRun (hs : s.isScoped = false) (h : J.Lowers [.stmt s] run) :
    StmtJudged J s (.ofRun s run) where
  stmt := rfl
  run := h
  block _ hb := nomatch hb
  loop _ hl := nomatch hl
  declares _ hd := nomatch hd
  scope hs' := by simp [hs] at hs'

theorem StmtJudged.ofScope (h : J.LowersScope s.leaves s run) : StmtJudged J s (.ofRun s run) where
  stmt := rfl
  run := h.1
  block _ hb := nomatch hb
  loop _ hl := nomatch hl
  declares _ hd := nomatch hd
  scope _ := h

theorem StmtJudged.ofLoop {loop : Option String → Emit Unit} (hs : s.leaves = true)
    (h : ∀ label, J.LowersScope true s (loop label)) : StmtJudged J s (.ofLoop s loop) :=
  { StmtJudged.ofScope (hs ▸ h none) with
    loop := fun _ hl label => Option.some.inj hl ▸ h label }

theorem StmtJudged.ofParts (hs : s.isScoped = false) (ht : s.isTransparent = true)
    (h : J.Lowers s.uses run) : StmtJudged J s (.ofRun s run) := by
  refine .ofRun hs ?_
  rwa [Judgment.Lowers, J.transparent_all ht]

end

section

variable {cx : Context} {J : StmtJudgment cx.version cx.logsExceptions}

/-- The code of the statement has the judgment. -/
abbrev Stmt.Judged (J : StmtJudgment cx.version cx.logsExceptions) (s : Stmt) : Prop :=
  StmtJudged J s (s.code cx)

theorem Expr.Judged.classDef {loc : Loc} {d : ClassDef} (h : ∀ s ∈ d.body, s.Judged J) :
    (Expr.classDef loc d).Judged J.toJudgment := by
  obtain ⟨id, superClass, body, isModule⟩ := d
  have hclass (isStatic : Bool) := J.classDef (d := ⟨id, superClass, body, isModule⟩)
    (c := ⟨id, superClass, stmtCodes cx body, isModule⟩) loc isStatic
    (runAll_lowers (stmtCodes_forall₂ h))
  refine { ExprJudged.ofValue (e := .classDef loc ⟨id, superClass, body, isModule⟩) rfl
    fun role _ => ?_ with asStatic := fun role outer => .ite (fun _ => ?_) fun _ => J.reject }
  · rw [Judgment.Lowers, J.class_all]
    exact hclass false
  · rw [J.static_all]
    exact hclass true

theorem Expr.isJudged_of_parts (e : Expr) (h : e.Parts (Expr.Judged J.toJudgment) (Stmt.Judged J)) :
    e.Judged J.toJudgment := by
  refine Expr.judged_of_parts h fun hspecial => ?_
  cases e with
  | function loc r =>
    obtain ⟨id, params, body⟩ := r
    have hparams := exprCodes_forall₂ h.1
    refine .ofValue rfl fun role _ => ?_
    cases id with
    | none => exact closure_lowers false rfl rfl rfl rfl hparams (nodeCode_rel h.2)
    | some id => exact subroutine_lowers false rfl rfl rfl rfl hparams (nodeCode_rel h.2)
  | method loc r | arrow loc r =>
    obtain ⟨id, params, body⟩ := r
    exact .ofValue rfl fun role _ =>
      closure_lowers _ rfl rfl rfl rfl (exprCodes_forall₂ h.1) (nodeCode_rel h.2)
  | logical loc op left right => exact .ofValue rfl fun _ _ => logical_lowers op h.1 h.2
  | conditional loc a b c => exact .ofValue rfl fun _ _ => conditional_lowers h.1 h.2.1 h.2.2
  | classDef loc d => exact .classDef h
  | importName loc specifiers target asName =>
    exact .ofValue rfl fun _ _ => .node rfl rfl rfl (.leaf (J.inert (.importName _ _ _ _)))
  | yield loc =>
    refine .ofValue rfl fun role _ => ?_
    rw [Judgment.Lowers, J.yield_all]
    exact .last (J.suspends (.inr rfl)) fun _ => J.handOff _
  | await loc e => exact .ofValue rfl fun _ _ => await_lowers h
  | selfRef loc => exact .ofValue rfl fun role _ => J.selfValue role loc
  | _ => cases hspecial

theorem Stmt.isJudged_of_parts
    (hinclude : ∀ loc path, J.Lowers [.stmt (.includeFile loc path)] (Emit.includeFile cx loc path))
    (s : Stmt) (h : s.Parts (Expr.Judged J.toJudgment) (Stmt.Judged J)) : s.Judged J := by
  cases s with
  | classDef loc d =>
    obtain ⟨id, superClass, body, isModule⟩ := d
    exact .ofRun rfl (J.classDef loc false (runAll_lowers (stmtCodes_forall₂ h)))
  | function loc r =>
    obtain ⟨id, params, body⟩ := r
    cases id with
    | none => exact .ofParts rfl rfl (.leaf (J.pure ()))
    | some id =>
      exact .ofRun rfl (subroutine_lowers false rfl rfl rfl rfl (exprCodes_forall₂ h.1) (nodeCode_rel h.2))
  | method loc r =>
    obtain ⟨id, params, body⟩ := r
    exact .ofRun rfl (subroutine_lowers true rfl rfl rfl rfl (exprCodes_forall₂ h.1) (nodeCode_rel h.2))
  | forLoop loc init test update body =>
    exact .ofLoop rfl (forLoop_scope (nodeHoleCode_rel h.1) (holeCode_rel h.2.1)
      (holeCode_rel h.2.2.1) h.2.2.2)
  | foreach loc left right body => exact .ofLoop rfl (foreach_scope (nodeCode_rel h.1) h.2.1 h.2.2)
  | whileLoop loc test body => exact .ofLoop rfl (whileLoop_scope h.1 h.2)
  | doWhile loc body test => exact .ofLoop rfl (doWhile_scope h.1 h.2)
  | declare loc ds =>
    have hdeclare (fromStack : Bool) : J.Lowers [.stmt (.declare loc ds)] _ :=
      J.declared loc (declare_holds fromStack (declaratorCodes_forall₂ h))
    exact { StmtJudged.ofRun rfl (hdeclare false) with
      declares := fun _ hd fromStack => Option.some.inj hd ▸ hdeclare fromStack }
  | returnValue loc argument => exact .ofRun rfl (.node rfl rfl rfl (returnValue_lowers (holeCode_rel h)))
  | importName loc specifiers target asName =>
    exact .ofRun rfl (.node rfl rfl rfl (.leaf (J.inert (.importName _ _ _ _))))
  | ifElse loc test consequent alternate =>
    exact .ofScope (ifElse_scope h.1 h.2.1 (stmtHoleCode_rel h.2.2))
  | block loc stmts =>
    have hstmts := stmtCodes_forall₂ h
    exact { StmtJudged.ofScope (block_scope hstmts) with
      block := fun _ hb => Option.some.inj hb ▸ (J.insides loc (body_holds hstmts)).2 }
  | expression loc e => exact .ofRun rfl (.node rfl rfl rfl (expressionStatement_lowers h))
  | switch loc discriminant cases => exact .ofScope (switch_scope h.1 (caseCodes_forall₂ h.2))
  | continueLoop loc label => exact .ofParts rfl rfl (.leaf (continueLoop_holds label))
  | breakOut loc label => exact .ofParts rfl rfl (.leaf (breakOut_holds label))
  | labeled loc label body => exact .ofScope (labeled_scope h)
  | includeFile loc path => exact .ofRun rfl (hinclude loc path)
  | require loc e | throw loc e =>
    exact .ofRun rfl (.node rfl rfl rfl (.last h.value fun _ => .plain rfl rfl))
  | finalizer loc e => exact .ofRun rfl (finalizer_lowers h)
  | tryCatch loc tried handler last =>
    exact .ofRun rfl (tryCatch_lowers h.1 (clauseHoleCode_rel h.2.1) (stmtHoleCode_rel h.2.2.1))
  | undef loc path =>
    exact .ofRun rfl (.node rfl rfl rfl (.leaf (.step (.pathSymbols _) fun _ => J.inert (.pathed (by simp)))))
  | sourceFile loc path => exact .ofParts rfl rfl (.leaf (sourceFile_holds path))
  | moduleConstructor loc e body =>
    exact .ofRun rfl (.node rfl rfl rfl (moduleConstructor_lowers h.1 h.2))
  | print loc es => exact .ofRun rfl (.node rfl rfl rfl (print_lowers (exprCodes_forall₂ h)))
  | delegate loc id => exact .ofRun rfl (J.delegate loc id)
  | empty loc => exact .ofRun rfl (.node rfl rfl rfl (.leaf (J.pure ())))

end

section

variable (o : Options) (sources : Sources)

/-- The context of a compilation, for a way to follow includes. -/
def Options.following (follow : List Stmt → Emit Unit) : Context :=
  ⟨o.version, o.logsExceptions, o.projectFolder, sources, follow⟩

theorem Options.context_eq (depth : Nat) :
    o.context sources depth = o.following sources (o.context sources depth).follow := by
  cases depth <;> rfl

/-- Includes have the judgment wherever the statements of the files have it. -/
def StmtJudgment.CoversIncludes (J : StmtJudgment o.version o.logsExceptions) : Prop :=
  ∀ follow loc path, (∀ ss, J.Lowers (ss.map .stmt) (follow ss)) →
    J.Lowers [.stmt (.includeFile loc path)] (includeFile (o.following sources follow) loc path)

variable {o sources} {J : StmtJudgment o.version o.logsExceptions}

/-- Every statement and expression has the judgment if the files that they may include have it. -/
theorem StmtJudgment.CoversIncludes.holds (h : J.CoversIncludes o sources) {follow : List Stmt → Emit Unit}
    (hfollow : ∀ ss, J.Lowers (ss.map .stmt) (follow ss)) :
    (∀ s : Stmt, StmtJudged J s (s.code (o.following sources follow))) ∧
      ∀ e : Expr, ExprJudged J.toJudgment e (e.code (o.following sources follow)) := by
  have hexpr := @Expr.isJudged_of_parts (o.following sources follow) J
  have hstmt := @Stmt.isJudged_of_parts (o.following sources follow) J fun loc path =>
    h follow loc path hfollow
  exact ⟨Stmt.holds hexpr hstmt, Expr.holds hexpr hstmt⟩

variable (h : J.CoversIncludes o sources) (depth : Nat)

include h

theorem Options.follow_lowers (ss : List Stmt) :
    J.Lowers (ss.map .stmt) ((o.context sources depth).follow ss) := by
  induction depth generalizing ss with
  | zero => exact J.runs fun _ _ _ hr => nomatch hr
  | succ depth ih =>
    have hstmts : ∀ s ∈ ss, StmtJudged J s (s.code (o.context sources depth)) := by
      rw [o.context_eq]
      exact fun s _ => (h.holds ih).1 s
    exact runAll_lowers (stmtCodes_forall₂ hstmts)

theorem Stmt.judged (s : Stmt) : StmtJudged J s (s.code (o.context sources depth)) := by
  rw [o.context_eq]
  exact (h.holds (Options.follow_lowers h depth)).1 s

theorem Expr.isJudged (e : Expr) : ExprJudged J.toJudgment e (e.code (o.context sources depth)) := by
  rw [o.context_eq]
  exact (h.holds (Options.follow_lowers h depth)).2 e

end

end Adhoc
