import Adhoc.Proofs.SafeStmt

namespace Adhoc

open Emit

variable {n : Regime} {lib : Library} {cx : Context} {v : Version}

section

variable {s : Stmt} {run : Emit Unit}

theorem StmtSafe.ofReturn (hs : s.isClosed = false) (h : Performs n lib v [.stmt s] run) :
    StmtSafe n lib v s (.ofRun s run) where
  stmt := rfl
  run := h
  closed h := nomatch hs.symm.trans h
  block _ hb := nomatch hb
  loop _ hl := nomatch hl
  declares _ hd := nomatch hd

theorem StmtSafe.ofRun (h : Tracks n lib v [.stmt s] run) : StmtSafe n lib v s (.ofRun s run) where
  stmt := rfl
  run := h
  closed _ := h
  block _ hb := nomatch hb
  loop _ hl := nomatch hl
  declares _ hd := nomatch hd

theorem StmtSafe.ofLoop {loop : Option String → Emit Unit} (hs : s.isLoop = true)
    (h : ∀ label, Behaves n (.loop lib v label s) (loop label)) :
    StmtSafe n lib v s (.ofLoop s loop) := by
  have hrun : Tracks n lib v [.stmt s] (loop none) := by
    rw [Tracks, Trail.all_singleton, Trail.of_loop hs]
    exact h none
  exact { StmtSafe.ofRun hrun with loop := fun _ hl => ⟨hs, Option.some.inj hl ▸ h⟩ }

end

theorem ofValue_safe {e : Expr} {value : Emit Unit} (he : e.returnedUses = [.expr .value e])
    (h : Tracks n lib v [.expr e] value) :
    ExprSafe n lib v e (.ofValue v e value) := .ofValue he fun _ _ => h

section

variable (n : Regime) (lib : Library) (cx : Context)

abbrev Expr.Safe (e : Expr) : Prop := ExprSafe n lib cx.version e (e.code cx)

abbrev Stmt.Safe (s : Stmt) : Prop := StmtSafe n lib cx.version s (s.code cx)

end

section

variable {loc : Loc}

theorem classDef_safe {d : ClassDef} (h : ∀ s ∈ d.body, s.Safe n lib cx) :
    (Expr.classDef loc d).Safe n lib cx := by
  obtain ⟨id, superClass, body, isModule⟩ := d
  exact { ofValue_safe (e := .classDef loc ⟨id, superClass, body, isModule⟩) rfl
      (.node rfl (classDef_tracks loc false (stmtCodes_forall₂ h))) with
    asStatic := fun _ _ => Safe.node rfl (.node rfl (staticClass_tracks loc (stmtCodes_forall₂ h))) }

end

section

variable (n : Regime) (cx : Context)

abbrev Expr.IsSafe : Expr → Prop := Expr.Safe n (cx.library none) cx

abbrev Stmt.IsSafe : Stmt → Prop := Stmt.Safe n (cx.library none) cx

end

section

theorem Expr.isSafe_of_parts (e : Expr) (h : e.Parts (Expr.IsSafe n cx) (Stmt.IsSafe n cx)) :
    e.IsSafe n cx := by
  refine Expr.judged_of_parts h fun hspecial => ?_
  cases e with
  | function loc r =>
    obtain ⟨id, params, body⟩ := r
    have hparams := exprCodes_forall₂ h.1
    cases id with
    | none => exact ofValue_safe rfl (closure_tracks loc false rfl rfl hparams (nodeCode_rel h.2))
    | some id => exact ofValue_safe rfl (subroutine_tracks loc false rfl rfl hparams (nodeCode_rel h.2))
  | method loc r | arrow loc r =>
    obtain ⟨id, params, body⟩ := r
    exact ofValue_safe rfl (closure_tracks loc _ rfl rfl (exprCodes_forall₂ h.1) (nodeCode_rel h.2))
  | logical loc op left right => exact ofValue_safe rfl (.node rfl (logical_tracks loc op h.1 h.2))
  | conditional loc a b c => exact ofValue_safe rfl (.node rfl (conditional_tracks h.1 h.2.1 h.2.2))
  | classDef loc d => exact classDef_safe h
  | importName loc specifiers target asName =>
    exact ofValue_safe rfl (.node rfl (.leaf (importName_safe _ _ _ _)))
  | yield loc =>
    exact ofValue_safe rfl (.node rfl (.leaf (.own (.plain rfl rfl) fun _ => .handOff _)))
  | await loc e => exact ofValue_safe rfl (await_tracks loc h)
  | selfRef loc => exact ofValue_safe rfl (.node rfl (.leaf (.selfValue loc)))
  | _ => cases hspecial

theorem Stmt.isSafe_of_parts (hlogs : n.logs = cx.logsExceptions)
    (hfollow : ∀ ss, Reaches n (cx.library none) cx.version ss (cx.follow ss)) (s : Stmt)
    (h : s.Parts (Expr.IsSafe n cx) (Stmt.IsSafe n cx)) : s.IsSafe n cx := by
  cases s with
  | classDef loc d =>
    obtain ⟨id, superClass, body, isModule⟩ := d
    exact .ofRun (.node rfl (classDef_tracks loc false (stmtCodes_forall₂ h)))
  | function loc r =>
    obtain ⟨id, params, body⟩ := r
    refine .ofRun ?_
    cases id with
    | none => exact .node rfl (.leaf (.pure ()))
    | some id => exact subroutine_tracks loc false rfl rfl (exprCodes_forall₂ h.1) (nodeCode_rel h.2)
  | method loc r =>
    obtain ⟨id, params, body⟩ := r
    exact .ofRun (subroutine_tracks loc true rfl rfl (exprCodes_forall₂ h.1) (nodeCode_rel h.2))
  | forLoop loc init test update body =>
    exact .ofLoop rfl (forLoop_behaves (nodeHoleCode_rel h.1) (holeCode_rel h.2.1)
      (holeCode_rel h.2.2.1) h.2.2.2)
  | foreach loc left right body => exact .ofLoop rfl (foreach_behaves (nodeCode_rel h.1) h.2.1 h.2.2)
  | whileLoop loc test body => exact .ofLoop rfl (whileLoop_behaves h.1 h.2)
  | doWhile loc body test => exact .ofLoop rfl (doWhile_behaves h.1 h.2)
  | declare loc ds =>
    have hds : List.Forall₂ (DeclaratorRel (ExprSafe n (cx.library none) cx.version)) ds
        (declaratorCodes cx ds) := declaratorCodes_forall₂ h
    have hdeclare (fromStack : Bool) : Tracks n (cx.library none) cx.version [.stmt (.declare loc ds)] _ :=
      .node rfl (declare_tracks fromStack hds)
    exact { StmtSafe.ofRun (hdeclare false) with
      declares := fun _ hd fromStack => Option.some.inj hd ▸ hdeclare fromStack }
  | returnValue loc argument =>
    exact .ofReturn rfl (.node rfl (returnValue_performs (holeCode_rel h)))
  | importName loc specifiers target asName =>
    exact .ofRun (.node rfl (.leaf (importName_safe _ _ _ _)))
  | ifElse loc test consequent alternate =>
    exact .ofRun (.node rfl (ifElse_tracks loc h.1 h.2.1 (stmtHoleCode_rel h.2.2)))
  | block loc stmts =>
    have hbody : Performs n (cx.library none) cx.version [.stmt (.block loc stmts)]
        (body cx.version cx.logsExceptions (stmtCodes cx stmts)) :=
      .node rfl (hlogs ▸ body_performs (stmtCodes_forall₂ h))
    exact { StmtSafe.ofRun (block_tracks hbody) with
      block := fun _ hb => ⟨rfl, Option.some.inj hb ▸ hbody⟩ }
  | expression loc e => exact .ofRun (.node rfl (expressionStatement_lowers h))
  | switch loc discriminant cases =>
    exact .ofRun (.node rfl (switch_tracks h.1 (caseCodes_forall₂ h.2)))
  | continueLoop loc label => exact .ofRun (continueLoop_tracks _ _)
  | breakOut loc label => exact .ofRun (.node rfl (.leaf (breakOut_behaves _ _)))
  | labeled loc label body => exact .ofRun (labeled_tracks h)
  | includeFile loc path => exact .ofReturn rfl (includeFile_performs _ _ hfollow)
  | require loc e | throw loc e =>
    exact .ofRun (.node rfl (.last h.value fun _ => .plain rfl rfl))
  | finalizer loc e => exact .ofRun (.node rfl (finalizer_tracks h))
  | tryCatch loc tried handler last =>
    exact .ofRun (.node rfl (tryCatch_tracks h.1 (clauseHoleCode_rel h.2.1)
      (stmtHoleCode_rel h.2.2.1)))
  | undef loc path => exact .ofRun (.node rfl (.leaf (undef_behaves _ _)))
  | sourceFile loc path => exact .ofRun (sourceFile_tracks _ _)
  | moduleConstructor loc e body =>
    exact .ofReturn rfl (.node rfl (moduleConstructor_performs h.1 h.2))
  | print loc es => exact .ofRun (.node rfl (print_tracks (exprCodes_forall₂ h)))
  | delegate loc id => exact .ofRun (.node rfl (.leaf (delegate_safe loc id)))
  | empty loc => exact .ofRun (.node rfl (.leaf (.pure ())))

theorem Context.reaches (cx : Context) (depth : Nat) (ss : List Stmt) :
    Reaches ⟨depth, cx.logsExceptions⟩ ((cx.atDepth depth).library none) (cx.atDepth depth).version ss
      ((cx.atDepth depth).follow ss) := by
  induction depth generalizing ss with
  | zero => exact fun _ => rfl
  | succ depth ih =>
    have hlogs := cx.logsExceptions_atDepth depth
    have hstmts : ∀ s ∈ ss, s.IsSafe ⟨depth, cx.logsExceptions⟩ (cx.atDepth depth) := fun s _ =>
      Stmt.holds Expr.isSafe_of_parts (Stmt.isSafe_of_parts hlogs.symm ih) s
    have hall := runAll_performs (stmtCodes_forall₂ hstmts)
    rw [Context.library_atDepth, Context.version_atDepth] at hall ⊢
    exact hall

theorem Stmt.isSafe (cx : Context) (depth : Nat) (s : Stmt) :
    s.IsSafe ⟨depth, cx.logsExceptions⟩ (cx.atDepth depth) :=
  Stmt.holds Expr.isSafe_of_parts
    (Stmt.isSafe_of_parts (cx.logsExceptions_atDepth depth).symm (cx.reaches depth)) s

/-- What the options and the depth fix for the whole program. -/
def Options.regime (o : Options) (depth : Nat) : Regime := ⟨depth, o.logsExceptions⟩

/-- Every statement of a program that is compiled has safe code. -/
theorem Stmt.safe (o : Options) (sources : Sources) (depth : Nat) (s : Stmt) :
    StmtSafe (o.regime depth) ⟨sources, none, o.projectFolder⟩ o.version s
      (s.code (o.context sources depth)) := by
  have h : s.IsSafe (o.regime depth) (o.context sources depth) :=
    Stmt.isSafe ⟨o.version, o.logsExceptions, o.projectFolder, sources, fun _ => pure ()⟩ depth s
  rwa [Stmt.IsSafe, Stmt.Safe, Options.context, Context.library_atDepth, Context.version_atDepth] at h

end

end Adhoc
