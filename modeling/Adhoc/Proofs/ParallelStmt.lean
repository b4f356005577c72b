import Adhoc.Proofs.ParallelRoutine

namespace Adhoc

open Emit

variable {α : Type} {T : Terms} {jumps : List (Option Nat)} {s : Stmt} {dflt dflt' : Option UInt32}

/-- What two compilations have in common, whatever the terms, and how each follows includes. -/
structure Setting where
  logsExceptions : Bool
  projectFolder : Option String
  sources : Sources
  follow : List Stmt → Emit Unit
  follow' : List Stmt → Emit Unit

namespace Terms

def context (T : Terms) (S : Setting) : Context :=
  ⟨T.left, S.logsExceptions, S.projectFolder, S.sources, S.follow⟩

def context' (T : Terms) (S : Setting) : Context :=
  ⟨T.right, S.logsExceptions, S.projectFolder, S.sources, S.follow'⟩

section

variable (T : Terms)

/-- The codes of what is declared. A name does not touch the source. -/
structure TargetParallel (e : Expr) (n m : String) (c c' : ExprCode) : Prop
    extends T.ExprParallel e n m c c' where
  name : e.ident?.isSome = true → n = m

/-- The codes of a declarator. The side that comes first depends on the version. -/
structure DeclaratorParallel (d : Declarator) (n m : String) (c c' : DeclaratorCode) : Prop where
  loc : T.Near c.loc c'.loc
  value : T.left.has .valueBeforePush = true → ∃ k,
    Perhaps T.ExprParallel d.init n k c.init c'.init ∧ Perhaps T.TargetParallel d.id k m c.id c'.id
  push : T.left.has .valueBeforePush = false → ∃ k,
    Perhaps T.TargetParallel d.id n k c.id c'.id ∧ Perhaps T.ExprParallel d.init k m c.init c'.init

/-- The test of a case. The tests of a switch come before all of its bodies. -/
structure TestParallel (x : SwitchCase) (n m : String) (c c' : CaseCode) : Prop where
  loc : T.Near c.loc c'.loc
  test : Perhaps T.ExprParallel x.test n m c.test c'.test

/-- The body of a case. -/
def BodyParallel (_ : SwitchCase) (n m : String) (c c' : CaseCode) : Prop :=
  T.Parallel n m (runAll c.consequent) (runAll c'.consequent)

structure ClauseParallel (h : CatchClause) (n m : String) (c c' : CatchCode) : Prop where
  loc : T.Near c.loc c'.loc
  param : c'.param = holeMoved T.move c.param
  body : T.StmtParallel h.body n m c.body c'.body

end

variable {n k m : String}

namespace StmtParallel

theorem ofRun {run run' : Emit Unit} (s : Stmt) (h : T.Parallel n m run run') :
    T.StmtParallel s n m (.ofRun (s.filled T.fill) run)
      (.ofRun ((s.filled T.fill').moved T.move) run') where
  stmt := rfl
  stmt' := rfl
  run := h
  block := .none
  loop := .none
  declares := .none

theorem ofLoop {loop loop' : Option String → Emit Unit} (s : Stmt)
    (h : ∀ label, T.Parallel n m (loop label) (loop' label)) :
    T.StmtParallel s n m (.ofLoop (s.filled T.fill) loop)
      (.ofLoop ((s.filled T.fill').moved T.move) loop') :=
  { ofRun s (h none) with loop := .some h }

variable {c c' : StmtCode}

theorem isBlock_eq (h : T.StmtParallel s n m c c') : c.block?.isSome = c'.block?.isSome := by
  have hblock := h.block
  generalize c.block? = b at hblock
  generalize c'.block? = b' at hblock
  cases hblock <;> rfl

theorem inScope (h : T.StmtParallel s n m c c') :
    T.Parallel n m (c.inScope T.left) (c'.inScope T.right) := by
  unfold StmtCode.inScope
  rw [h.stmt, h.stmt']
  cases s with
  | block | continueLoop | breakOut => exact h.run
  | _ => exact .bind (.pushScope _) fun _ => .bind h.run fun _ => .leaveScope _

end StmtParallel

end Terms

namespace Emit

/-- The line of the last default case, if there is one. -/
def defaultLine : Option UInt32 → List CaseCode → Option UInt32
  | dflt, [] => dflt
  | dflt, c :: rest => defaultLine (if c.test.isSome then dflt else some c.loc.line) rest

variable {v : Version} {subject equals : Symbol} {cs : List CaseCode} {s t : Session}

theorem caseTests_line {r : List (Option Nat) × Option UInt32}
    (h : caseTests v subject equals dflt cs s = .ok (r, t)) : r.2 = defaultLine dflt cs := by
  induction cs generalizing dflt s r t with
  | nil => rw [(pure_ok.1 h).1, defaultLine]
  | cons c cs ih =>
    cases ht : c.test <;> simp only [caseTests, ht, bind_ok] at h <;> simp only [defaultLine, ht]
    case none =>
      obtain ⟨_, _, -, _, _, h2, h3⟩ := h
      have hline := ih h2
      rw [(pure_ok.1 h3).1]
      exact hline
    case some test =>
      obtain ⟨_, _, -, _, _, -, _, _, -, _, _, -, _, _, h5, h6⟩ := h
      have hline := ih h5
      rw [(pure_ok.1 h6).1]
      exact hline

theorem caseTests_bind (f : List (Option Nat) × Option UInt32 → Emit α) :
    caseTests v subject equals dflt cs >>= f =
      (Prod.fst <$> caseTests v subject equals dflt cs) >>= fun jumps =>
        f (jumps, defaultLine dflt cs) := by
  rw [bind_map_left]
  funext s
  simp only [show ∀ g : List (Option Nat) × Option UInt32 → Emit α,
    (caseTests v subject equals dflt cs >>= g) s =
      (caseTests v subject equals dflt cs s).bind fun p => g p.1 p.2 from fun _ => rfl]
  cases h : caseTests v subject equals dflt cs s with
  | error => rfl
  | ok r =>
    rw [← caseTests_line h]
    rfl

theorem caseJumps_length
    (h : (Prod.fst <$> caseTests v subject equals dflt cs) s = .ok (jumps, t)) :
    jumps.length = cs.length := by
  rw [map_eq_pure_bind, bind_ok] at h
  obtain ⟨r, _, hr, h⟩ := h
  rw [(pure_ok.1 h).1, caseTests_length hr]

end Emit

namespace Terms.Parallel

variable {i j k n m : String} {a b e : Expr} {left left' right right' c c' : ExprCode}
  {inner inner' : StmtCode} {loc loc' : Loc} {line line' : UInt32} {final : Option Stmt}
  {init : Option Node} {x : Node}

theorem bindWith {β : Type} {P : α → Prop} {x y : Emit α} {f g : α → Emit β}
    (hx : T.Parallel n k x y) (hP : ∀ {a s t}, x s = .ok (a, t) → P a)
    (hf : ∀ a, P a → T.Parallel k m (f a) (g a)) : T.Parallel n m (x >>= f) (y >>= g) := by
  intro s s' h
  have hmeets := hx h
  rw [show (x >>= f) s = (x s).bind fun p => f p.1 p.2 from rfl,
    show (y >>= g) s' = (y s').bind fun p => g p.1 p.2 from rfl]
  cases hrun : x s with
  | error e =>
    rw [hrun] at hmeets
    generalize y s' = r' at hmeets
    cases hmeets with
    | error h => exact .error h
    | excuse _ h => exact .excuse _ h
  | ok r =>
    obtain ⟨a, t⟩ := r
    rw [hrun] at hmeets
    generalize y s' = r' at hmeets
    cases hmeets with
    | ok _ ht =>
      refine (hf a (hP hrun) ht.1).mono fun _ _ _ hu => ?_
      exact ⟨hu.1, ht.2.trans hu.2⟩

theorem expressionStatement (h : T.ExprParallel e n m c c') :
    T.Parallel n m (Emit.expressionStatement T.left c) (Emit.expressionStatement T.right c') := by
  unfold Emit.expressionStatement
  rw [h.expr, h.expr', leavesValue_moved, leavesValue_filled, leavesValue_filled]
  exact .bind h.value fun _ => .ite .pop (.pure ())

theorem ifElse {alternate : Option Stmt} {other other' : Option StmtCode}
    (htest : T.ExprParallel e n j c c') (hbody : T.StmtParallel s j k inner inner')
    (hother : Perhaps T.StmtParallel alternate k m other other') :
    T.Parallel n m (Emit.ifElse T.left c inner other) (Emit.ifElse T.right c' inner' other') := by
  unfold Emit.ifElse
  rw [T.has_eq .alternateJumpAlways rfl]
  refine .bind (.pushScope _) fun _ => .bind htest.kept fun _ => .bind (.jump _ .refl) fun toAlternate =>
    .bind hbody.inScope fun _ => ?_
  cases hother with
  | none =>
    dsimp only
    split
    · refine .bind (.jump _ .refl) fun toEnd => .bind (.patchHere _) fun _ => ?_
      exact .bind (.patchHere _) fun _ => .leaveScope _
    · exact .bind (.patchHere _) fun _ => .leaveScope _
  | some h =>
    refine .bind (.jump _ .refl) fun toEnd => .bind (.patchHere _) fun _ => .bind h.inScope fun _ => ?_
    exact .bind (.patchHere _) fun _ => .leaveScope _

theorem loopTest {test : Option Expr} {c c' : Option ExprCode}
    (h : Perhaps T.ExprParallel test n m c c') :
    T.Parallel n m (loopTest T.left c) (loopTest T.right c') := by
  cases h with
  | none => exact .pure none
  | some h => exact .bind h.kept fun _ => .bind (.jump _ .refl) fun _ => .pure _

theorem endLoop (exits : Option Nat) : T.Each n (endLoop · exits) :=
  .bind .here fun _ => .bind (.patchAll _ _) fun _ => .bind .takeBreaks fun _ =>
    .bind (.patchAll _ _) fun _ => .leaveScope _

theorem declares {cause : Cause} {c c' : StmtCode} (h : T.StmtParallel s n m c c') (fromStack : Bool) :
    T.Parallel n m
      (match c.declares? with
        | some declares => declares fromStack
        | none => Emit.reject c.loc cause)
      (match c'.declares? with
        | some declares => declares fromStack
        | none => Emit.reject c'.loc cause) := by
  have hdeclares := h.declares
  generalize c.declares? = d at hdeclares
  generalize c'.declares? = d' at hdeclares
  cases hdeclares with
  | none => exact .reject h.near _
  | some hd => exact hd fromStack

theorem forInit {c c' : Option NodeCode} (h : Perhaps T.NodeParallel init n m c c') :
    T.Parallel n m (forInit c) (forInit c') := by
  cases h with
  | none => exact .pure ()
  | some h =>
    cases h with
    | stmt h => exact .declares h false
    | @expr e _ _ c c' h =>
      have hloc := h.near
      simp only [forInit]
      rw [h.expr, h.expr']
      cases e with
      | assign | ident => exact h.value
      | _ => exact .reject hloc _

theorem forLoop {test update : Option Expr} {d d' : Option NodeCode} {t t' u u' : Option ExprCode}
    (hloc : T.Near loc loc') (hinit : Perhaps T.NodeParallel init n i d d')
    (htest : Perhaps T.ExprParallel test i j t t') (hbody : T.StmtParallel s j k inner inner')
    (hupdate : Perhaps T.ExprParallel update k m u u') (label : Option String) :
    T.Parallel n m (forLoop T.left loc d t u inner label)
      (forLoop T.right loc' d' t' u' inner' label) := by
  refine .bind (.pushScope _) fun _ => .bind (.forInit hinit) fun _ => .bind .here fun start =>
    .bind (.loopTest htest) fun exit => .bind hbody.run fun _ => .bind .here fun updateStart =>
    .bind .takeContinues fun continues => .bind (.patchAll _ _) fun _ => ?_
  cases hupdate with
  | none => exact .bind (.jumpTo _ hloc.line) fun _ => .endLoop exit
  | some h => exact .bind h.steps fun _ => .bind (.jumpTo _ hloc.line) fun _ => .endLoop exit

theorem whileLoop (htest : T.ExprParallel e n k c c') (hbody : T.StmtParallel s k m inner inner')
    (htrue : Emit.isTrue e = true → n = k) (label : Option String) :
    T.Parallel n m (Emit.whileLoop T.left c inner label) (Emit.whileLoop T.right c' inner' label) := by
  unfold Emit.whileLoop
  rw [htest.expr, htest.expr', isTrue_moved, isTrue_filled,
    isTrue_filled]
  have hloop : T.Parallel n k
      (Emit.loopTest T.left (if Emit.isTrue e = true then none else some c))
      (Emit.loopTest T.right (if Emit.isTrue e = true then none else some c')) := by
    split
    · obtain rfl := htrue ‹_›
      exact .loopTest .none
    · exact .loopTest (.some htest)
  refine .bind (.pushScope _) fun _ => .bind .here fun start => .bind hloop fun exit =>
    .bind hbody.inScope fun _ => .bind (.add _ .refl) fun back => .bind .takeContinues fun continues => ?_
  exact .bind (.patchAll _ _) fun _ => .endLoop exit

theorem doWhile (hbody : T.StmtParallel s n k inner inner') (htest : T.ExprParallel e k m c c')
    (label : Option String) :
    T.Parallel n m (doWhile T.left inner c label) (doWhile T.right inner' c' label) :=
  .bind (.pushScope _) fun _ => .bind .here fun _ => .bind hbody.inScope fun _ =>
    .bind .here fun _ => .bind htest.kept fun _ => .bind .takeContinues fun _ =>
    .bind (.patchAll _ _) fun _ => .bind (.jump _ .refl) fun _ => .bind (.jumpTo _ .refl) fun _ =>
    .endLoop _

theorem foreachLeft {d d' : NodeCode} (h : T.NodeParallel x n m d d') :
    T.Parallel n m (foreachLeft d) (foreachLeft d') := by
  cases h with
  | stmt h => exact .declares h true
  | @expr e _ _ c c' h =>
    have hpattern := h.pattern
    simp only [foreachLeft]
    generalize c.pattern? = p at hpattern
    generalize c'.pattern? = p' at hpattern
    cases hpattern with
    | none => exact .reject h.near _
    | some hp => exact hp false

theorem foreach {d d' : NodeCode} (hloc : T.Near loc loc') (hright : T.ExprParallel e n j c c')
    (hleft : T.NodeParallel x j k d d') (hbody : T.StmtParallel s k m inner inner')
    (label : Option String) :
    T.Parallel n m (foreach T.left loc d c inner label)
      (Emit.foreach T.right loc' d' c' inner' label) := by
  have hline := hloc.line
  unfold Emit.foreach
  rw [T.has_eq .foreach rfl]
  refine .bind (.require _ hloc _) fun _ => .bind (.pushScope _) fun _ => .bind hright.value fun _ =>
    .bind (.symbol _) fun iterator => .bind (.emit _ hright.near.line) fun _ =>
    .bind (.newTemporary (.pure ()) _ hloc) fun items => .bind .here fun test =>
    .bind (.readTemporary _ hline) fun _ => .bind (.symbol _) fun fetchNext =>
    .bind (.emit _ hline) fun _ => .bind (.jump _ hline) fun exit =>
    .bind (.readTemporary _ hline) fun _ => .bind (.emit _ hline) fun _ => ?_
  refine .bind (.foreachLeft hleft) fun _ => .bind hbody.inScope fun _ => .bind .here fun next => ?_
  refine .bind .takeContinues fun continues => .bind (.patchAll _ _) fun _ => ?_
  exact .bind (.jumpTo _ .refl) fun _ => .endLoop _

section

variable {xs : List SwitchCase} {cs cs' : List CaseCode}

theorem caseJumps (subject equals : Symbol) (h : Chain T.TestParallel xs n m cs cs')
    (hdflt : dflt.isSome = dflt'.isSome) :
    T.Parallel n m (Prod.fst <$> caseTests T.left subject equals dflt cs)
      (Prod.fst <$> caseTests T.right subject equals dflt' cs') := by
  have hcons : ∀ (jump : Option Nat) (x : Emit (List (Option Nat) × Option UInt32)),
      (x >>= fun r => Pure.pure (jump :: r.1)) = (Prod.fst <$> x) >>= fun js => Pure.pure (jump :: js) :=
    fun _ _ => by simp only [bind_map_left]
  induction h generalizing dflt dflt' with
  | nil => exact .pure _
  | @cons x xs n k m c c' cs cs' hc _ ih =>
    have htest := hc.test
    have hnone : dflt.isNone = dflt'.isNone := by
      rw [← Option.not_isSome, ← Option.not_isSome, hdflt]
    simp only [caseTests, hnone]
    generalize c.test = t at htest
    generalize c'.test = t' at htest
    generalize x.test = e at htest
    cases htest with
    | none =>
      simp only [map_bind, map_pure, hcons]
      exact .bind (.require _ hc.loc _) fun _ => .bind (ih rfl) fun _ => .pure _
    | some htest =>
      have hline := hc.loc.line
      simp only [map_bind, map_pure, hcons]
      refine .bind (.readTemporary _ hline) fun _ => .bind htest.value fun _ => ?_
      refine .bind (.emit _ hline) fun _ => .bind (.jump _ hline) fun jump => ?_
      exact .bind (ih hdflt) fun _ => .pure _

theorem defaultLine (h : Chain T.TestParallel xs n m cs cs')
    (hdflt : Option.Rel T.Level dflt dflt') :
    Option.Rel T.Level (defaultLine dflt cs) (defaultLine dflt' cs') := by
  induction h generalizing dflt dflt' with
  | nil => exact hdflt
  | cons hc _ ih =>
    simp only [defaultLine, hc.test.isSome_eq]
    split
    · exact ih hdflt
    · exact ih (.some hc.loc.line)

theorem caseBodies (toDefault : Nat) (h : Chain T.BodyParallel xs n m cs cs')
    (hjumps : jumps.length = cs.length) :
    T.Parallel n m (caseBodies toDefault cs jumps) (caseBodies toDefault cs' jumps) := by
  induction h generalizing jumps with
  | nil =>
    rw [List.length_nil, List.length_eq_zero_iff] at hjumps
    subst hjumps
    exact .pure ()
  | cons hbody _ ih =>
    cases jumps with
    | nil => simp at hjumps
    | cons jump jumps =>
      exact .bind (.patchHere _) fun _ => .bind hbody fun _ => ih (by simpa using hjumps)

theorem switch (hloc : T.Near loc loc') (hsubject : T.ExprParallel e n j c c')
    (htests : Chain T.TestParallel xs j k cs cs') (hbodies : Chain T.BodyParallel xs k m cs cs') :
    T.Parallel n m (Emit.switch T.left loc c cs) (Emit.switch T.right loc' c' cs') := by
  unfold Emit.switch
  rw [T.has_eq .internalBinaryOperatorNames rfl]
  refine .bind (.pushScope _) fun _ => .bind (.newTemporary hsubject.value _ hloc) fun subject =>
    .bind (.operatorSymbol _ _) fun equals => ?_
  rw [caseTests_bind, caseTests_bind]
  refine .bindWith (.caseJumps subject equals htests rfl) caseJumps_length fun jumps hlength => ?_
  have hdefault := defaultLine htests .none
  generalize Emit.defaultLine none cs = dflt at hdefault
  generalize Emit.defaultLine none cs' = dflt' at hdefault
  have hcases (toDefault : Nat) := caseBodies toDefault hbodies hlength
  cases hdefault with
  | none => exact .bind (.jump _ .refl) fun toDefault => .bind (hcases toDefault) fun _ => .endLoop _
  | some hline => exact .bind (.jump _ hline) fun toDefault => .bind (hcases toDefault) fun _ => .endLoop _

end

theorem continueLoop (label : Option String) : T.Both n (continueLoop · · label) := by
  intro loc loc' hloc
  refine .frame fun d d' hd => ?_
  obtain ⟨code, rfl, -⟩ := hd
  refine .bind (.require _ hloc _) fun _ => .bind (.jump _ hloc.line) fun jump => ?_
  exact .discard (.onFrame (Draft.noted_blind _ _).2)

theorem breakOut (label : Option String) : T.Both n (breakOut · · label) := by
  intro loc loc' hloc
  refine .frame fun d d' hd => ?_
  obtain ⟨code, rfl, -⟩ := hd
  refine .bind (.require _ hloc _) fun _ => .bind (.jump _ .refl) fun jump => ?_
  exact .discard (.onFrame (Draft.noted_blind _ _).1)

theorem labeled (hloc : T.Near loc loc') (label : String) (h : T.StmtParallel s n m inner inner') :
    T.Parallel n m (labeled loc label inner) (labeled loc' label inner') := by
  refine .frame fun d d' hd => ?_
  obtain ⟨code, rfl, -⟩ := hd
  refine .bind (.require _ hloc _) fun _ => ?_
  have hloop := h.loop
  generalize inner.loop? = l at hloop
  generalize inner'.loop? = l' at hloop
  cases hloop with
  | none => exact .reject hloc _
  | some hl => exact hl _

theorem returnedValue (h : T.Parallel n m c.returned c'.returned) :
    T.Parallel n m (Emit.returnedValue T.left c) (Emit.returnedValue T.right c') := by
  unfold Emit.returnedValue
  rw [T.has_eq .popOnValueReturn rfl]
  refine .bind h fun _ => .ite ?_ (.handOff _)
  exact .bind .pop fun _ => .bind .bareReturn fun _ => .bareReturn

theorem returnValue {e : Option Expr} {c c' : Option ExprCode}
    (h : Perhaps (fun _ n m c c' => T.Parallel n m c.returned c'.returned) e n m c c') :
    T.Parallel n m (returnValue T.left c) (returnValue T.right c') := by
  have hmark : T.Alone m markReturn := by
    refine .change (fun s code => ?_) (fun s => ?_) (fun s => ?_) fun s => ?_
    · rw [show Draft.atTop { s.frame with code := code } = s.frame.atTop from rfl]
      split <;> rfl
    all_goals split <;> rfl
  cases h with
  | none => exact .bind .emptyReturn fun _ => hmark
  | some h => exact .bind (.returnedValue h) fun _ => hmark

theorem bindThrown (name : String) (hloc : T.Near loc loc') (hline : T.Level line line') :
    T.Parallel n n (bindThrown T.left name loc line)
      (bindThrown T.right name loc' line') := by
  have htemporary : T.Near { line := line } { line := line' } := fun hexact => by rw [hline hexact]
  refine .bind (.emit _ hline) fun _ => .bind (.pushName _ _ hloc) fun _ => .bind (.emit _ hline) fun _ => ?_
  exact .bind (.temporary _) fun _ => .bind (.pushName _ _ htemporary) fun _ => .assignPop

theorem ignoreThrown (hline : T.Level line line') :
    T.Parallel n n (ignoreThrown T.left line) (ignoreThrown T.right line') :=
  .bind (.emit _ hline) fun _ => .emit _ hline

theorem catchParameter (hline : T.Level line line') (param : Option Expr) :
    T.Parallel n n (catchParameter T.left line param)
      (catchParameter T.right line' (holeMoved T.move param)) := by
  cases param with
  | none => exact .ignoreThrown hline
  | some param =>
    have hloc := T.near_moved param
    simp only [holeMoved, Emit.catchParameter, param.ident?_moved]
    split
    · exact .reject hloc _
    · exact .bindThrown _ hloc hline

theorem catchClause {x : CatchClause} {d d' : CatchCode} (h : T.ClauseParallel x n m d d') :
    T.Parallel n m (Emit.catchClause T.left d) (Emit.catchClause T.right d') := by
  unfold Emit.catchClause
  rw [h.body.isBlock_eq, h.param]
  exact .bind (.require _ h.body.near _) fun _ => .bind (.catchParameter h.loc.line _) fun _ => h.body.run

theorem lastly {f f' : Option StmtCode} :
    Perhaps T.StmtParallel final n m f f' → T.Parallel n m
      (match f with
        | none => Pure.pure ()
        | some finalizer => do
          Emit.require finalizer.block?.isSome finalizer.loc .catchNotBlock
          finalizer.run)
      (match f' with
        | none => Pure.pure ()
        | some finalizer => do
          Emit.require finalizer.block?.isSome finalizer.loc .catchNotBlock
          finalizer.run) := by
  intro h
  cases h with
  | none => exact .pure ()
  | some h =>
    dsimp only
    rw [h.isBlock_eq]
    exact .bind (.require _ h.near _) fun _ => h.run

theorem tryCatch {x : Option CatchClause} {d d' : Option CatchCode} {f f' : Option StmtCode}
    (hloc : T.Near loc loc') (hblock : T.StmtParallel s n j inner inner')
    (hhandler : Perhaps T.ClauseParallel x j k d d')
    (hfinal : Perhaps T.StmtParallel final k m f f') :
    T.Parallel n m (Emit.tryCatch T.left loc inner d f) (Emit.tryCatch T.right loc' inner' d' f') := by
  unfold Emit.tryCatch
  rw [hblock.isBlock_eq]
  refine .bind (.jump _ hloc.line) fun toHandler => .bind (.require _ hblock.near _) fun _ =>
    .bind hblock.run fun _ => .bind (.setState _) fun _ => .bind (.patchHere _) fun _ => ?_
  cases hhandler with
  | none => exact .lastly hfinal
  | some h =>
    refine .bind (.jump _ .refl) fun toEnd => .bind (.catchClause h) fun _ => ?_
    exact .bind (.patchHere _) fun _ => .lastly hfinal

theorem checkFinalizer (e : Expr) :
    T.Parallel n n (checkFinalizer (T.first e)) (checkFinalizer (T.second e)) := by
  have hloc := T.near_first e
  cases e with
  | function loc r =>
    obtain ⟨id, params, body⟩ := r
    cases id <;> cases params <;> exact .bind (.require _ hloc _) fun _ => .require _ hloc _
  | arrow loc r =>
    obtain ⟨id, params, body⟩ := r
    cases params <;> exact .require _ hloc _
  | _ => exact .reject hloc _

theorem finalizer (hloc : T.Near loc loc') (h : T.ExprParallel e n m c c') :
    T.Parallel n m (Emit.finalizer T.left loc c) (Emit.finalizer T.right loc' c') := by
  unfold Emit.finalizer
  rw [h.expr, h.expr']
  refine .bind (.checkFinalizer e) fun _ => .bind h.value fun _ => .bind (.temporary _) fun temporary =>
    .bind (.pushName _ _ hloc) fun _ => .bind (.symbol _) fun finally_ => ?_
  exact .bind (.emit _ hloc.line) fun _ => .assignPop

theorem logException : T.Each n logException :=
  .bind (.member _ _ .refl) fun _ => .bind (.text _ _ .refl) fun _ => .bind (.text _ _ .refl) fun _ =>
    .bind (.emit _ .refl) fun _ => .bind (.afterCall .refl) fun _ => .bind .pop fun _ =>
    .bind (.readName _ .refl) fun _ => .emit _ .refl

theorem body {ss ss' : List StmtCode} (logs : Bool)
    (h : T.Parallel n m (runAll ss) (runAll ss')) :
    T.Parallel n m (body T.left logs ss) (body T.right logs ss') := by
  refine .ite h ?_
  refine .bind (.jump _ .refl) fun toHandler => .bind h fun _ => .bind (.setState _) fun _ =>
    .bind (.patchHere _) fun _ => .bind (.jump _ .refl) fun toEnd => ?_
  exact .bind (.bindThrown _ .refl .refl) fun _ => .bind .logException fun _ => .patchHere _

theorem block {inside inside' : Emit Unit} (isEmpty : Bool) (h : T.Parallel n m inside inside') :
    T.Parallel n m (block T.left isEmpty inside) (block T.right isEmpty inside') :=
  .bind (.pushScope _) fun _ => .bind h fun _ => .leaveScope _

theorem moduleConstructor (hid : T.ExprParallel e n k c c') (hbody : T.StmtParallel s k m inner inner') :
    T.Parallel n m (moduleConstructor T.left c inner)
      (moduleConstructor T.right c' inner') :=
  .bind hid.value fun _ => .bind (.emit _ .refl) fun _ => .bind hbody.run fun _ => .setState _

theorem print {es : List Expr} {cs cs' : List ExprCode} (hloc : T.Near loc loc')
    (h : T.ExprsParallel es n m cs cs') :
    T.Parallel n m (Emit.print T.left loc cs) (Emit.print T.right loc' cs') := by
  unfold Emit.print
  rw [h.length_eq]
  exact .bind (.pushAll h) fun _ => .bind (.emit _ hloc.line) fun _ => .pop

theorem undef (name : String) : T.Both n (undef · · name) := fun hloc =>
  .bind (.pathSymbols _) fun _ => .emit _ hloc.line

theorem declaredTarget {after after' : Emit Unit} (h : T.TargetParallel e n m c c')
    (takesValue : Bool) (hafter : T.Parallel m m after after') :
    T.Parallel n m (declaredTarget T.left c takesValue after)
      (declaredTarget T.right c' takesValue after') := by
  have hpattern := h.pattern
  have hloc := h.near
  unfold Emit.declaredTarget
  rw [h.expr, h.expr']
  generalize c.pattern? = p at hpattern
  generalize c'.pattern? = p' at hpattern
  cases e with
  | ident loc name =>
    obtain rfl := h.name rfl
    exact .ite (.bind (.pushName _ _ (T.near_first (.ident loc name))) fun _ => hafter)
      (.declareName name)
  | _ =>
    cases hpattern with
    | none => exact .reject hloc _
    | some hp => exact hp true

theorem assignDeclared (h : T.ExprParallel e k m c c') :
    T.Parallel n n (Emit.assignDeclared T.left c) (Emit.assignDeclared T.right c') := by
  unfold Emit.assignDeclared
  rw [h.expr, h.expr']
  cases e with
  | arrayPattern loc elements =>
    simp only [first, second, Expr.filled, Expr.moved, length_exprsMoved, length_exprsFilled]
    exact .bind (.emit _ (T.near_move loc).line) fun _ => .pop
  | _ => exact .assignPop

theorem declarator {d : Declarator} {x x' : DeclaratorCode} (fromStack : Bool)
    (h : T.DeclaratorParallel d n m x x') :
    T.Parallel n m (declarator T.left fromStack x) (declarator T.right fromStack x') := by
  obtain ⟨hloc, hvalue, hpush⟩ := h
  obtain ⟨loc, target, value⟩ := d
  unfold Emit.declarator
  rw [← T.has_eq .valueBeforePush rfl]
  generalize x.id = id at hvalue hpush
  generalize x'.id = id' at hvalue hpush
  generalize x.init = init at hvalue hpush
  generalize x'.init = init' at hvalue hpush
  cases hv : T.left.has .valueBeforePush with
  | true =>
    obtain ⟨k, hinit, hid⟩ := hvalue hv
    cases hid with
    | none => exact .reject hloc _
    | some hid =>
      dsimp only
      rw [hid.toExprParallel.name?_eq, hinit.isSome_eq]
      refine .bind (.require _ hid.near _) fun _ => ?_
      cases hinit with
      | none => exact .declaredTarget hid _ .assignPop
      | some hinit => exact .bind hinit.declared fun _ => .declaredTarget hid _ .assignPop
  | false =>
    obtain ⟨k, hid, hinit⟩ := hpush hv
    cases hid with
    | none => exact .reject hloc _
    | some hid =>
      dsimp only
      rw [hid.toExprParallel.name?_eq, hinit.isSome_eq]
      refine .bind (.require _ hid.near _) fun _ => .bind (.declaredTarget hid _ (.pure ())) fun _ => ?_
      cases hinit with
      | none => exact .pure ()
      | some hinit =>
        exact .bind hinit.declared fun _ => .assignDeclared hid.toExprParallel

theorem declare {ds : List Declarator} {xs xs' : List DeclaratorCode} (fromStack : Bool)
    (h : Chain T.DeclaratorParallel ds n m xs xs') :
    T.Parallel n m (declare T.left xs fromStack) (declare T.right xs' fromStack) :=
  h.forM fun h => .declarator fromStack h

end Terms.Parallel

theorem Emit.emit_setSource (v : Version) (op : Operation) (line : UInt32) (source : Option Symbol) :
    (do emit v op line; setSource source) = (do setSource source; emit v op line) := by
  funext s
  have hemit : ∀ s : Session, emit v op line s = ((op.effect v).mapError Failure.defect).map fun moves =>
      ((), { s with frame := s.frame.write ⟨line, op⟩ (s.frame.depth.follow moves) }) := by
    intro s
    rw [show emit v op line s = (onFrame (Draft.add v op line) s).bind fun r => .ok ((), r.2) from rfl]
    unfold onFrame Draft.add
    cases op.effect v <;> rfl
  rw [show (do emit v op line; setSource source : Emit Unit) s =
      (emit v op line s).bind fun r => setSource source r.2 from rfl,
    show (do setSource source; emit v op line : Emit Unit) s =
      emit v op line { s with frame := { s.frame with source := source } } from rfl, hemit, hemit]
  cases op.effect v <;> rfl

theorem Emit.sourceFile_eq (v : Version) (path : String) : sourceFile v path = (do
    let x ← plainSymbol path
    setSource (some x)
    emit v (.named .sourceFile x) 0) := by
  unfold sourceFile
  simp only [emit_setSource]

namespace Terms.ParallelIn

variable {child : Draft} {k n m : String}

theorem enterSource {f g : Symbol → Emit α} (path : String)
    (hf : ∀ x, x.name = path → T.ParallelIn child k path m (f x) (g x)) :
    T.ParallelIn child k n m
      (do let x ← plainSymbol path; setSource (some x); f x)
      (do let x ← plainSymbol path; setSource (some x); g x) := by
  intro s s' hs hchild
  obtain ⟨d, rfl, code, rfl, hlike⟩ := hs.like
  have hgrows := s.symbols.intern_grows path false
  have hfound := s.symbols.intern_found path false
  have hpair : T.Pair path
      { s with
        symbols := (s.symbols.intern path false).2
        frame := { s.frame with source := some (s.symbols.intern path false).1 } }
      { s with
        symbols := (s.symbols.intern path false).2
        frame := { s.frame with source := some (s.symbols.intern path false).1, code := code } } :=
    ⟨⟨_, rfl, code, rfl, hlike⟩, ⟨_, rfl, hfound⟩, hs.settled⟩
  refine (hf _ (SymbolTable.name_of_find? hfound) hpair (hchild.mono rfl hgrows)).mono ?_
  exact fun _ _ _ ht => ⟨ht.1, hgrows.trans ht.2⟩

theorem leaveSource : T.ParallelIn child k n k (setSource child.source)
    (setSource child.source) := by
  intro s s' hs hchild
  obtain ⟨d, rfl, code, rfl, hlike⟩ := hs.like
  obtain ⟨x, hx, hfind⟩ := hchild
  exact .ok () ⟨⟨⟨_, rfl, code, rfl, hlike⟩, ⟨x, hx, hfind⟩, hs.settled⟩, .refl _⟩

end Terms.ParallelIn

namespace Terms.Parallel

variable {S : Setting} {n m : String} {loc loc' : Loc}

theorem frameIn {f g : Draft → Emit α}
    (h : ∀ d d', d.Like T.alike d' → T.ParallelIn d n n m (f d) (g d')) :
    T.Parallel n m (Emit.frame >>= f) (Emit.frame >>= g) := by
  intro s s' hs
  obtain ⟨d, rfl, hd⟩ := hs.like
  exact h s.frame d hd hs hs.sourced

theorem sourceFile (path : String) :
    T.Parallel n path (sourceFile T.left path) (sourceFile T.right path) := by
  rw [sourceFile_eq, sourceFile_eq]
  intro s s' hs
  exact ParallelIn.enterSource path (fun _ _ => .of (.emit _ .refl)) hs hs.sourced

theorem includeFolder : T.Alone n includeFolder := by
  intro s s' hs
  obtain ⟨d, rfl, code, rfl, hlike⟩ := hs.like
  unfold Emit.includeFolder
  dsimp only
  split
  · exact .ok _ ⟨hs, .refl _⟩
  · rename_i hnone
    refine .ok _ ⟨⟨⟨_, rfl, code, rfl, hlike⟩, hs.sourced, fun f hf => ?_⟩, .refl _⟩
    have hsome := hs.settled f hf
    rw [hnone] at hsome
    cases hsome

theorem locateInclude (hloc : T.Near loc loc') (path : String) :
    T.Parallel n n (Emit.locateInclude (T.context S) loc path)
      (Emit.locateInclude (T.context' S) loc' path) := by
  unfold Emit.locateInclude
  dsimp only [context, context']
  refine .bind .includeFolder fun folder => .ite (.pure _) ?_
  split
  · exact .ite (.pure _) (.reject hloc _)
  · exact .reject hloc _

theorem includeFile (hfollow : ∀ body n, ∃ m, T.Parallel n m (S.follow body) (S.follow' body))
    (hloc : T.Near loc loc') (path : String) :
    T.Parallel n n (includeFile (T.context S) loc path)
      (includeFile (T.context' S) loc' path) := by
  refine .bind (.locateInclude hloc path) fun location => ?_
  dsimp only [context, context']
  split
  · exact .reject hloc _
  · rename_i program _
    obtain ⟨k, hfollow⟩ := hfollow program.body path
    refine .frameIn fun d d' hd => .enterSource path fun inner _ => ?_
    obtain ⟨code, rfl, -⟩ := hd
    refine .bind (.emit _ hloc.line) fun _ => .bind hfollow fun _ => ?_
    have hback : ∀ outer, T.ParallelIn d n k n
        (do Emit.emit T.left (.named .sourceFile outer) loc.line; Emit.setSource d.source)
        (do Emit.emit T.right (.named .sourceFile outer) loc'.line; Emit.setSource d.source) :=
      fun outer => .bind (.emit _ hloc.line) fun _ => .leaveSource
    dsimp only
    split
    · exact .bind (.pure _) hback
    · exact .bind (.plainSymbol _) hback

end Terms.Parallel

end Adhoc
