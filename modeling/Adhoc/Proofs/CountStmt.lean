import Adhoc.Proofs.CountExpr

namespace Adhoc

open Emit

variable {fit nested : Prop} {v : Version} {loc : Loc} {c test : ExprCode} {body : StmtCode}
  {label : Option String} {cases : List CaseCode} {x : Emit Unit}

theorem expressionStatement_counts {n : Int} (h : Counts fit nested v n 0 c.value)
    (hn : fit → n = if leavesValue c.expr then 1 else 0) :
    Counts fit nested v 0 0 (expressionStatement v c) := by
  have hvalue : Counts fit nested v (if leavesValue c.expr then 1 else 0) 0 c.value :=
    .refit h fun hf => ⟨hn hf, Int.le_refl _⟩
  refine .seq (b := if leavesValue c.expr then -1 else 0) (d := if leavesValue c.expr then 1 else 0)
    hvalue (fun _ => ?_) ⟨?_, by decide, ?_⟩
  · split
    · exact pop_straight.runs
    · exact .neutral (.pure _)
  · split <;> rfl
  · split <;> decide

theorem inScope_counts (h : Counts fit nested v 0 0 body.run) :
    Counts fit nested v 0 0 (body.inScope v) := by
  unfold StmtCode.inScope
  split
  iterate 3 exact h
  refine .after (pushScope_counts _) fun _ => .after h fun _ => ?_
  exact leaveScope_counts _

theorem ifElse_counts {alternate : Option StmtCode} (ht : Counts fit nested v 1 0 test.kept)
    (hc : Counts fit nested v 0 0 body.run)
    (ha : ∀ a, alternate = some a → Counts fit nested v 0 0 a.run) :
    Counts fit nested v 0 0 (ifElse v test body alternate) := by
  refine .after (pushScope_counts _) fun _ => ?_
  refine .push ht fun _ => ?_
  refine .before (jump_counts .ifFalse _) fun j => ?_
  refine .after (inScope_counts hc) fun _ => ?_
  have hjump : Counts fit nested v 0 0 (jump v .always 0) := jump_counts .always _
  cases alternate with
  | some alternate =>
    refine .after hjump fun k => .after (patchHere_counts _) fun _ => ?_
    refine .after (inScope_counts (ha alternate rfl)) fun _ => ?_
    exact .after (patchHere_counts _) fun _ => leaveScope_counts _
  | none =>
    have hlast : Counts fit nested v 0 0 (do
        patchHere j
        leaveScope v false) := .after (patchHere_counts _) fun _ => leaveScope_counts _
    dsimp only
    split
    · refine .after hjump fun k => ?_
      exact .after (patchHere_counts _) fun _ => hlast
    · exact hlast

theorem loopTest_counts {test : Option ExprCode}
    (h : ∀ t, test = some t → Counts fit nested v 1 0 t.kept) :
    Counts fit nested v 0 0 (loopTest v test) := by
  cases test with
  | none => exact .neutral (.pure _)
  | some test =>
    refine .push (h test rfl) fun _ => ?_
    exact .last (jump_counts .ifFalse _) fun _ => .pure _

theorem endLoop_counts (exits : Option Nat) : Counts fit nested v 0 0 (endLoop v exits) := by
  refine .skip .here fun exit => .after (patchAll_counts _ _) fun _ => ?_
  refine .after (updateScope_counts _) fun breaks => ?_
  exact .after (patchAll_counts _ _) fun _ => leaveScope_counts _

theorem aimContinues_counts {target : Nat} (h : Counts fit nested v 0 0 x) :
    Counts fit nested v 0 0 (do
      let continues ← takeContinues
      patchAll continues target
      x) := by
  refine .after (updateScope_counts _) fun continues => ?_
  exact .after (patchAll_counts _ _) fun _ => h

theorem forLoop_counts {init : Option NodeCode} {test update : Option ExprCode}
    (hi : Counts fit nested v 0 0 (forInit init))
    (ht : ∀ t, test = some t → Counts fit nested v 1 0 t.kept)
    (hu : ∀ u, update = some u → Counts fit nested v 0 0 u.steps)
    (hb : Counts fit nested v 0 0 body.run) :
    Counts fit nested v 0 0 (forLoop v loc init test update body label) := by
  have hend : ∀ start exit, Counts fit nested v 0 0 (do
      jumpTo v start loc.line
      endLoop v exit) := fun start exit =>
    .after (jumpTo_counts _ _) fun _ => endLoop_counts _
  refine .after (pushScope_counts _) fun _ => .after hi fun _ => ?_
  refine .skip .here fun start => .after (loopTest_counts ht) fun exit => ?_
  refine .after hb fun _ => .skip .here fun updateStart => ?_
  refine aimContinues_counts ?_
  cases update with
  | none => exact hend start exit
  | some update => exact .after (hu update rfl) fun _ => hend start exit

theorem whileLoop_counts (ht : Counts fit nested v 1 0 test.kept)
    (hb : Counts fit nested v 0 0 body.run) :
    Counts fit nested v 0 0 (whileLoop v test body label) := by
  refine .after (pushScope_counts _) fun _ => .skip .here fun start => ?_
  refine .after (loopTest_counts fun t h => ?_) fun exit => ?_
  · split at h <;> cases h
    exact ht
  · refine .after (inScope_counts hb) fun _ => ?_
    refine .after (jumpWith_counts .always _ _) fun back => ?_
    exact aimContinues_counts (endLoop_counts _)

theorem doWhile_counts (hb : Counts fit nested v 0 0 body.run)
    (ht : Counts fit nested v 1 0 test.kept) :
    Counts fit nested v 0 0 (doWhile v body test label) := by
  refine .after (pushScope_counts _) fun _ => .skip .here fun start => ?_
  refine .after (inScope_counts hb) fun _ => .skip .here fun testStart => ?_
  refine .push ht fun _ => ?_
  refine .after (updateScope_counts _) fun continues => ?_
  refine .after (patchAll_counts _ _) fun _ => ?_
  refine .before (jump_counts .ifFalse _) fun exit => ?_
  exact .after (jumpTo_counts _ _) fun _ => endLoop_counts _

/-- The iterator is on the stack when its temporary is made. -/
theorem takeTemporary_counts {stem : String} (hv : v.has .valueBeforePush = true) :
    Counts fit nested v (-1) 1 (newTemporary v (pure ()) stem loc) := by
  refine .skip (.temporary _) fun symbol => ?_
  simp only [hv, if_true]
  refine .skip (.pure _) fun _ => ?_
  refine .push (pushName_straight _ _ _).runs fun _ => ?_
  exact .last assignPop_straight.runs fun _ => .pure _

theorem foreach_counts {next : NodeCode} (hr : Counts fit nested v 1 0 c.value)
    (hl : v.has .foreach = true → Counts fit nested v (-1) 1 (foreachLeft next))
    (hb : Counts fit nested v 0 0 body.run) :
    Counts fit nested v 0 0 (foreach v loc next c body label) := by
  refine .required fun hv => .after (pushScope_counts _) fun _ => ?_
  refine .push hr fun _ => ?_
  refine .skip (.symbol _) fun iterator => ?_
  refine .after (.emit _ rfl rfl (by decide)) fun _ => ?_
  refine .before (takeTemporary_counts hv) fun items => ?_
  refine .skip .here fun test => ?_
  refine .push (readTemporary_straight _ _).runs fun _ => ?_
  refine .skip (.symbol _) fun fetchNext => ?_
  refine .after (.emit _ rfl rfl (by decide)) fun _ => ?_
  refine .before (jump_counts .ifFalse _) fun exit => ?_
  refine .push (readTemporary_straight _ _).runs fun _ => ?_
  refine .after (.emit _ rfl rfl (by decide)) fun _ => .before (hl hv) fun _ => ?_
  refine .after (inScope_counts hb) fun _ => .skip .here fun next => ?_
  exact aimContinues_counts (.after (jumpTo_counts _ _) fun _ => endLoop_counts _)

theorem caseTests_counts (subject equals : Symbol) (dflt : Option UInt32)
    (h : ∀ c ∈ cases, ∀ t, c.test = some t → Counts fit nested v 1 0 t.value) :
    Counts fit nested v 0 0 (caseTests v subject equals dflt cases) := by
  induction cases generalizing dflt with
  | nil => exact .neutral (.pure _)
  | cons c cases ih =>
    rw [List.forall_mem_cons] at h
    simp only [caseTests]
    cases htest : c.test with
    | none =>
      refine .skip .require fun _ => ?_
      exact .last (ih _ h.2) fun _ => .pure _
    | some test =>
      refine .push (readTemporary_straight _ _).runs fun _ => ?_
      refine .push (h.1 test htest) fun _ => ?_
      refine .seq (a := -1) (b := -1) (c := 2) (d := 1) (.emit _ rfl rfl ⟨rfl, Int.le_refl _⟩)
        (fun _ => ?_) (by decide)
      refine .before (jump_counts .ifTrue _) fun jump => ?_
      exact .last (ih _ h.2) fun _ => .pure _

theorem caseBodies_counts (toDefault : Nat) (jumps : List (Option Nat))
    (h : ∀ c ∈ cases, ∀ s ∈ c.consequent, Counts fit nested v 0 0 s.run) :
    Counts fit nested v 0 0 (caseBodies toDefault cases jumps) := by
  induction cases generalizing jumps with
  | nil => exact .neutral (.pure _)
  | cons c cases ih =>
    cases jumps with
    | nil => exact .neutral (.pure _)
    | cons j jumps =>
      rw [List.forall_mem_cons] at h
      refine .after (patchHere_counts _) fun _ => ?_
      exact .after (runAll_runs h.1) fun _ => ih jumps h.2

theorem switch_counts (hd : Counts fit nested v 1 0 c.value)
    (ht : ∀ c ∈ cases, ∀ t, c.test = some t → Counts fit nested v 1 0 t.value)
    (hb : ∀ c ∈ cases, ∀ s ∈ c.consequent, Counts fit nested v 0 0 s.run) :
    Counts fit nested v 0 0 (switch v loc c cases) := by
  refine .after (pushScope_counts _) fun _ => ?_
  refine .after (newTemporary_runs hd) fun subject => ?_
  refine .skip (.operatorSymbol _ _) fun equals => ?_
  refine .after (caseTests_counts _ _ _ ht) fun result => ?_
  refine .after (jump_counts .always _) fun toDefault => ?_
  exact .after (caseBodies_counts _ _ hb) fun _ => endLoop_counts _

theorem continueLoop_counts : Counts fit nested v 0 0 (continueLoop v loc label) := by
  refine .skip .frame fun f => .skip .require fun _ => ?_
  refine .after (jump_counts .always _) fun jump => ?_
  exact .discard (noted_counts _ _).2

theorem breakOut_counts : Counts fit nested v 0 0 (breakOut v loc label) := by
  refine .skip .frame fun f => .skip .require fun _ => ?_
  refine .after (jump_counts .always _) fun jump => ?_
  exact .discard (noted_counts _ _).1

theorem labeled_counts {name : String}
    (h : ∀ loop, body.loop? = some loop → ∀ label, Counts fit nested v 0 0 (loop label)) :
    Counts fit nested v 0 0 (labeled loc name body) := by
  refine .skip .frame fun f => .skip .require fun _ => ?_
  cases hloop : body.loop? with
  | none => exact .reject
  | some loop => exact h loop hloop _

theorem returnedValue_counts (h : Counts fit nested v 1 0 c.returned) :
    Counts fit nested v 0 0 (returnedValue v c) := by
  refine .push h fun _ => ?_
  split
  · refine .before pop_straight.runs fun _ => ?_
    exact .after bareReturn_straight.runs fun _ => bareReturn_straight.runs
  · exact (handOff_straight _).runs

theorem returnValue_counts {argument : Option ExprCode}
    (h : ∀ c, argument = some c → Counts fit nested v 1 0 c.returned) :
    Counts fit nested v 0 0 (returnValue v argument) := by
  cases argument with
  | none => exact .after emptyReturn_straight.runs fun _ => .neutral markReturn_neutral
  | some c =>
    exact .after (returnedValue_counts (h c rfl)) fun _ => .neutral markReturn_neutral

theorem finally_counts (o : Option StmtCode) :
    (∀ f, o = some f → Counts fit nested v 0 0 f.run) →
    Counts fit nested v 0 0 (match o with
      | none => pure ()
      | some finalizer => do
        require finalizer.block?.isSome finalizer.loc .catchNotBlock
        finalizer.run : Emit Unit) := by
  intro ho
  cases o with
  | none => exact .neutral (.pure _)
  | some f => exact .skip .require fun _ => ho f rfl

theorem tryCatch_counts {handler : Option CatchCode} {finalizer : Option StmtCode}
    (hb : Counts fit nested v 0 0 body.run)
    (hh : ∀ h, handler = some h → Counts fit nested v 0 0 h.body.run)
    (hf : ∀ f, finalizer = some f → Counts fit nested v 0 0 f.run) :
    Counts fit nested v 0 0 (tryCatch v loc body handler finalizer) := by
  have hlast := finally_counts finalizer hf
  refine .after (jump_counts .tryCatch _) fun toHandler => ?_
  refine .skip .require fun _ => .after hb fun _ => ?_
  refine .after setExit_straight.runs fun _ => .after (patchHere_counts _) fun _ => ?_
  cases handler with
  | none => exact hlast
  | some handler =>
    refine .after (jump_counts .always _) fun toEnd => ?_
    have hclause : Counts fit nested v 0 0 (catchClause v handler) := by
      refine .skip .require fun _ => ?_
      exact .after (catchParameter_straight _ _).runs fun _ => hh handler rfl
    exact .after hclause fun _ => .after (patchHere_counts _) fun _ => hlast

theorem finalizer_counts (h : Counts fit nested v 1 0 c.value) :
    Counts fit nested v 0 0 (finalizer v loc c) := by
  refine .skip (checkFinalizer_neutral _) fun _ => ?_
  refine .push h fun _ => ?_
  refine .skip (.temporary _) fun temporary => ?_
  refine .push (pushName_straight _ _ _).runs fun _ => ?_
  refine .skip (.symbol _) fun name => ?_
  exact .seq (a := 0) (c := 1) (.emit _ rfl rfl (by decide)) (fun _ => assignPop_straight.runs)
    (by decide)

theorem body_counts {stmts : List StmtCode} (logs : Bool)
    (h : ∀ c ∈ stmts, Counts fit nested v 0 0 c.run) :
    Counts fit nested v 0 0 (Emit.body v logs stmts) := by
  unfold Emit.body
  split
  · exact runAll_runs h
  refine .after (jump_counts .tryCatch _) fun toHandler => ?_
  refine .after (runAll_runs h) fun _ => .after setExit_straight.runs fun _ => ?_
  refine .after (patchHere_counts _) fun _ => ?_
  refine .after (jump_counts .always _) fun toEnd => ?_
  refine .after (bindThrown_straight _ _ _).runs fun _ => ?_
  exact .after logException_straight.runs fun _ => patchHere_counts _

theorem block_counts (isEmpty : Bool) (h : Counts fit nested v 0 0 x) :
    Counts fit nested v 0 0 (block v isEmpty x) :=
  .after (pushScope_counts _) fun _ => .after h fun _ => leaveScope_counts _

theorem moduleConstructor_counts (hc : Counts fit nested v 1 0 c.value)
    (hb : Counts fit nested v 0 0 body.run) :
    Counts fit nested v 0 0 (moduleConstructor v c body) := by
  refine .push hc fun _ => ?_
  refine .before (.emit _ rfl rfl (by decide)) fun _ => ?_
  exact .after hb fun _ => setExit_straight.runs

theorem print_counts {cs : List ExprCode} (hfit : fit → cs = [])
    (h : ∀ c ∈ cs, Counts fit nested v 1 0 c.value) : Counts fit nested v 0 0 (print v loc cs) := by
  refine .refit (n := cs.length) (.seq (b := 0) (d := 0) (.forM cs h (by decide)) (fun _ => ?_)
    ⟨by omega, Int.le_refl _, by omega⟩) fun hf => ⟨?_, Int.le_refl _⟩
  · exact .push (.emit _ rfl rfl ⟨rfl, Int.le_refl _⟩) fun _ => pop_straight.runs
  · simp [hfit hf]

theorem declaredTarget_counts {id : ExprCode} {takesValue : Bool} {after : Emit Unit} {n low : Int}
    (hname : id.name?.isSome → if takesValue then Counts fit nested v (n - 1) (low + 1) after
      else n = 0) (hl : 0 ≤ low)
    (hpattern : ∀ pattern, id.pattern? = some pattern → Counts fit nested v n low (pattern true)) :
    Counts fit nested v n low (declaredTarget v id takesValue after) := by
  unfold declaredTarget
  split
  · rename_i hid
    have hname := hname (by simp [ExprCode.name?, hid, Expr.ident?])
    cases takesValue with
    | true =>
      exact .seq (pushName_straight _ _ _).runs (fun _ => hname) ⟨by omega, hl, by omega⟩
    | false => exact .mono (.neutral (declareName_neutral _)) hname.symm hl
  · rename_i hp _
    exact hpattern _ hp
  · exact .reject

/-- A declaration of one variable, which may take its value from the stack. A pattern must have a
value, and only since version 11 its size is counted. -/
theorem declarator_counts {d : DeclaratorCode} {fromStack : Bool}
    (hstack : fit → fromStack = true → v.has .valueBeforePush = true)
    (hi : ∀ c, d.init = some c → Counts fit nested v 1 0 c.declared)
    (harray : ∀ c, d.id = some c → ∀ loc es, c.expr = .arrayPattern loc es → c.pattern?.isSome = true)
    (hpattern : ∀ c, d.id = some c → ∀ pattern, c.pattern? = some pattern →
      Counts fit nested v (-1) 1 (pattern true) ∧
        (fit → (d.init.isSome || fromStack) = true ∧ v.has .valueBeforePush = true)) :
    Counts fit nested v (if d.init.isNone && fromStack then -1 else 0)
      (if d.init.isNone && fromStack then 1 else 0) (declarator v fromStack d) := by
  obtain ⟨loc, id, init⟩ := d
  unfold declarator
  cases id with
  | none => exact .reject
  | some id =>
    refine .required fun _ => ?_
    have hpattern := hpattern id rfl
    cases hv : v.has .valueBeforePush with
    | true =>
      simp only [if_true]
      cases init with
      | none =>
        cases fromStack with
        | true =>
          exact declaredTarget_counts (fun _ => assignPop_straight.runs) (by simp)
            fun pattern hp => (hpattern pattern hp).1
        | false =>
          refine declaredTarget_counts (fun _ => rfl) (by simp) fun pattern hp => ?_
          exact .refit (hpattern pattern hp).1 fun hf => nomatch ((hpattern pattern hp).2 hf).1
      | some init =>
        refine .seq (b := -1) (d := 1) (hi init rfl) (fun _ => ?_) ⟨by simp, by simp, by simp⟩
        exact declaredTarget_counts (fun _ => assignPop_straight.runs) (by decide)
          fun pattern hp => (hpattern pattern hp).1
    | false =>
      have hunfit : ∀ pattern, id.pattern? = some pattern → fit → False := fun pattern hp hf =>
        absurd ((hpattern pattern hp).2 hf).2 (by simp [hv])
      have htarget : ∀ takes, Counts fit nested v (if takes then 1 else 0) 0
          (declaredTarget v id takes (pure ())) := by
        intro takes
        refine declaredTarget_counts (fun _ => ?_) (by decide) fun pattern hp => ?_
        · cases takes with
          | true => exact .mono (.neutral (.pure _)) rfl (by decide)
          | false => rfl
        · exact .refit (hpattern pattern hp).1 fun hf => (hunfit pattern hp hf).elim
      simp only [Bool.false_eq_true, if_false]
      cases init with
      | none =>
        refine .refit (.before (htarget fromStack) fun _ => .neutral (.pure _)) fun hf => ?_
        cases fromStack with
        | true => exact absurd (hstack hf rfl) (by simp [hv])
        | false => exact ⟨rfl, Int.le_refl _⟩
      | some init =>
        refine .seq (b := -1) (d := 1) (htarget true) (fun _ => ?_) ⟨by simp, by simp, by simp⟩
        refine .push (hi init rfl) fun _ => ?_
        unfold assignDeclared
        split
        · rename_i hid
          obtain ⟨pattern, hp⟩ := Option.isSome_iff_exists.1 (harray id rfl _ _ hid)
          have hlist : ∀ n line, Counts fit nested v 1 0 (emit v (.counted .listAssignOld n) line) :=
            fun _ _ => .emit _ rfl rfl ⟨rfl, Int.le_refl _⟩
          exact .refit (.bind (hlist _ _) fun _ => pop_straight.runs)
            fun hf => (hunfit pattern hp hf).elim
        · exact assignPop_straight.runs

theorem includeFile_counts {cx : Context} {path : String}
    (h : ∀ program, (cx.library none).Includes path program →
      Counts fit nested cx.version 0 0 (cx.follow program.body)) :
    Counts fit nested cx.version 0 0 (includeFile cx loc path) := by
  have hmark : ∀ symbol, Counts fit nested cx.version 0 0
      (emit cx.version (.named .sourceFile symbol) loc.line) :=
    fun symbol => .emit _ rfl rfl ⟨rfl, Int.le_refl _⟩
  intro s _ t hr
  obtain ⟨location, program, r, first, -, hstill, -, hincludes, -, -, hr⟩ :=
    includeFile_ok (fun f (hf : none = some f) => nomatch hf) hr
  have hfollow := h program hincludes
  have hstart : Tallied fit nested cx.version 0 0 s r :=
    .of_eq hstill.code hstill.depth hstill.keeps
  suffices hrest : Tallied fit nested cx.version 0 0 r t from Ledger.trans hstart hrest
  refine Runs.skip .frame (fun f => .skip (.plainSymbol _) fun inner => ?_) hr
  refine .skip (setSource_neutral _) fun _ => .after (hmark _) fun _ => ?_
  refine .after hfollow fun _ => ?_
  have hlast : ∀ outer, Counts fit nested cx.version 0 0 (do
      emit cx.version (.named .sourceFile outer) loc.line
      setSource f.source) :=
    fun outer => .last (hmark outer) fun _ => setSource_neutral _
  split
  · exact .skip (.pure _) hlast
  · exact .skip (.plainSymbol _) hlast

end Adhoc
