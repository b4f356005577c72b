import Adhoc.Proofs.Compilation
import Adhoc.Proofs.Core
import Adhoc.Proofs.PaceStmt
import Adhoc.Proofs.TreeInduction

namespace Adhoc

open Emit List

/-- The code of a core expression. -/
structure ExprPaced (v : Version) (e : Expr) (c : ExprCode) : Prop where
  expr : c.expr = e
  value : Yields v c.value
  kept : c.kept = c.value
  referred : c.referred = c.value
  underRefer : c.underRefer = c.value
  returned : c.returned = c.value
  place : Yields v c.place
  stored : Yields v c.stored
  pattern : c.pattern? = none
  param : ∀ child, Yields v (c.param child)

/-- The code of a core statement. -/
structure StmtPaced (v : Version) (c : StmtCode) : Prop where
  run : Levels v c.run
  block : ∀ body, c.block? = some body → Levels v body
  loop : ∀ loop, c.loop? = some loop → ∀ label, Levels v (loop label)
  declares : ∀ declares, c.declares? = some declares → Runs (Paced v False) 0 0 (declares false)

section

variable {v : Version} {e : Expr} {c : ExprCode} {s : Stmt} {es : List Expr}

namespace ExprPaced

theorem ofValue {value : Emit Unit} (h : Yields v value) :
    ExprPaced v e (.ofValue v e value) where
  expr := rfl
  value := h
  kept := rfl
  referred := rfl
  underRefer := rfl
  returned := rfl
  place := .reject
  stored := .reject
  pattern := rfl
  param _ := .reject

theorem passed (h : ExprPaced v e c) : Yields v c.passed := by
  unfold ExprCode.passed
  split
  · exact .reject
  · exact h.referred ▸ h.value

theorem declared (h : ExprPaced v e c) : Yields v c.declared := by
  unfold ExprCode.declared
  split
  · exact h.referred ▸ h.value
  · exact h.kept ▸ h.value

theorem target (h : ExprPaced v e c) : Yields v c.target := by
  unfold ExprCode.target
  split
  · exact h.value
  iterate 4 exact h.place
  exact .reject

theorem store (h : ExprPaced v e c) (drops : Bool) :
    Runs (Paced v False) (if drops then -1 else 0) 1 (c.store v drops) :=
  store_runs h.stored (fun _ hp => by cases h.pattern.symm.trans hp) (by simp [h.pattern])

theorem assignment {left right : Expr} {cl cr : ExprCode} (loc : Loc) (hl : ExprPaced v left cl)
    (hr : ExprPaced v right cr) : Runs (Paced v False) 0 0 (assignment v loc .assign cl cr true) :=
  plainAssignment_runs (fun _ => hr.kept ▸ hr.value) (fun _ => hl.store true) hl.target
    (fun _ => hr.referred ▸ hr.value) fun _ => rfl

end ExprPaced

namespace StmtPaced

theorem ofRun {run : Emit Unit} (h : Levels v run) : StmtPaced v (.ofRun s run) where
  run := h
  block _ hb := nomatch hb
  loop _ hl := nomatch hl
  declares _ hd := nomatch hd

theorem ofLoop {loop : Option String → Emit Unit} (h : ∀ label, Levels v (loop label)) :
    StmtPaced v (.ofLoop s loop) :=
  { StmtPaced.ofRun (s := s) (h none) with loop := fun _ hl label => Option.some.inj hl ▸ h label }

end StmtPaced

end

section

variable {cx : Context} {loc : Loc} {e a b : Expr} {es : List Expr} {s : Stmt} {n : Node}

/-- The property of an expression that is proved by induction over trees. -/
structure Expr.IsPaced (cx : Context) (e : Expr) : Prop where
  core : CoreExpr False e → ExprPaced cx.version e (e.code cx)
  update : CoreUpdate False e → Runs (Paced cx.version False) 0 0 (e.code cx).steps

def Stmt.IsPaced (cx : Context) (s : Stmt) : Prop :=
  CoreStmt False s → StmtPaced cx.version (s.code cx)

theorem params_paced (h : ∀ e ∈ es, e.IsPaced cx) (hnames : ∀ e ∈ es, e.ident?.isSome = true) :
    ∀ c ∈ exprCodes cx es, ∀ child, Yields cx.version (c.param child) := by
  rw [exprCodes_eq, forall_mem_map]
  exact fun e he => ((h e he).core (.of_name (hnames e he))).param

theorem closureBody_paced (h : n.Holds (Expr.IsPaced cx) (Stmt.IsPaced cx)) (hn : CoreBody False n) :
    Levels cx.version (closureBody cx.version (n.code cx)) := by
  cases hn with
  | block loc hb => exact (h (.block loc hb)).run.andThen fun _ => frameExit_paced
  | expr hwide => exact hwide.elim

theorem blockBody_paced (h : n.Holds (Expr.IsPaced cx) (Stmt.IsPaced cx)) (hn : CoreBody False n)
    {body : Emit Unit} {r r' : Session} (hr : NodeCode.blockBody (n.code cx) r = .ok (body, r')) :
    Levels cx.version body := by
  cases hn with
  | block loc hb =>
    obtain ⟨rfl, -⟩ := pure_ok.1 hr
    exact (h (.block loc hb)).block _ rfl
  | expr hwide => exact hwide.elim

theorem call_paced (ha : a.IsPaced cx) (hes : ∀ e ∈ es, e.IsPaced cx)
    (hcore : CoreExpr False (.call loc a es)) :
    Yields cx.version (call cx.version loc (a.code cx) (exprCodes cx es)) := by
  cases hcore with
  | call _ hname hcallee harguments =>
    have hcode := ha.core hcallee
    have hname' : (a.code cx).name? ≠ some "call" := by rwa [ExprCode.name?, hcode.expr]
    refine call_runs (by rw [if_neg hname']) (fun h => absurd h hname') fun _ => ⟨hcode.value, ?_⟩
    rw [exprCodes_eq, forall_mem_map]
    exact fun e he => ((hes e he).core (harguments e he)).passed

theorem Expr.core_isPaced (hv : cx.version.has .subroutineConsumesStack = true) (e : Expr)
    (h : e.Parts (Expr.IsPaced cx) (Stmt.IsPaced cx))
    (hcore : CoreExpr False e) : ExprPaced cx.version e (e.code cx) := by
  cases hcore with
  | literal loc value =>
    exact { ExprPaced.ofValue (literal_straight _ _).runs with place := (literal_straight _ _).runs }
  | ident loc name =>
    exact { ExprPaced.ofValue (identifier_straight loc name).runs with
      place := (pushName_straight _ _ _).runs
      stored := (pushName_straight _ _ _).runs
      param := fun _ => (nameParameter_straight _ _ _).runs }
  | @unary loc op a hop ha =>
    have hcode := Expr.IsPaced.core h ha
    have hvalue : Yields cx.version (Emit.unary cx.version loc op (a.code cx)) :=
      unary_runs op hcode.value (hcode.underRefer ▸ hcode.value)
    cases op <;> first | exact .ofValue hvalue | cases hop
  | @binary loc op a b ha hb =>
    have hvalue : Yields cx.version (Emit.binary cx.version loc op (a.code cx) (b.code cx)) :=
      binary_runs op ((h.1.core ha).kept ▸ (h.1.core ha).value) (h.2.core hb).value
    exact { ExprPaced.ofValue hvalue with place := hvalue }
  | logical loc hop ha hb =>
    exact .ofValue (logical_paced hop ((h.1.core ha).kept ▸ (h.1.core ha).value) (h.2.core hb).value)
  | conditional loc ht ha hb =>
    have hconsequent := h.2.1.core ha
    exact .ofValue (conditional_paced (h.1.core ht).value (hconsequent.referred ▸ hconsequent.value)
      (h.2.2.core hb).value)
  | @array loc es hes =>
    refine .ofValue (array_runs fun c hc => ?_)
    rw [holeCodes_eq, mem_map] at hc
    obtain ⟨o, ho, hoc⟩ := hc
    obtain ⟨e, rfl, rfl⟩ := Option.map_eq_some_iff.1 hoc
    exact ((h e ho).core (hes e (by simpa using ho))).value
  | «attribute» loc property hoptional ha =>
    have hplace := pushAttribute_runs property (h.1.core ha).value
    exact { ExprPaced.ofValue (attributeMember_runs property _ (h.1.core ha).value) with
      place := hplace
      stored := hplace }
  | @element loc object property optional hoptional ha hb =>
    have hplace : Yields cx.version
        (elementMember cx.version .push loc (object.code cx) (property.code cx)) :=
      elementMember_runs .push (h.1.core ha).value (h.2.core hb).value
    exact { ExprPaced.ofValue (.ite (optionalElement_runs (h.1.core ha).value (h.2.core hb).value)
        (elementMember_runs .eval (h.1.core ha).value (h.2.core hb).value)) with
      place := hplace
      stored := hplace }
  | @call loc callee arguments hname hcallee harguments =>
    have hvalue := call_paced h.1 h.2 (.call loc hname hcallee harguments)
    exact { ExprPaced.ofValue hvalue with place := hvalue }
  | function loc hnames hbody =>
    exact .ofValue (closure_paced false hv (exprCodes_declare _ _) (params_paced h.1 hnames)
      (closureBody_paced h.2 hbody))
  | arrow _ hwide => exact hwide.elim

theorem Expr.update_isPaced (e : Expr) (h : e.Parts (Expr.IsPaced cx) (Stmt.IsPaced cx))
    (hcore : CoreUpdate False e) : Runs (Paced cx.version False) 0 0 (e.code cx).steps := by
  cases hcore with
  | assign loc _ hl hr => exact (h.1.core hl).assignment loc (h.2.core hr)
  | step loc op prior place name =>
    have hname := (Expr.IsPaced.core h (.ident place name)).place
    exact .seq (updated_runs op prior hname) (fun _ => pop_straight.runs) (by decide)
  | call hcall =>
    exact .seq (call_paced h.1 h.2 hcall) (fun _ => pop_straight.runs) (by decide)

theorem Expr.isPaced_of_parts (hv : cx.version.has .subroutineConsumesStack = true) (e : Expr)
    (h : e.Parts (Expr.IsPaced cx) (Stmt.IsPaced cx)) : e.IsPaced cx :=
  ⟨e.core_isPaced hv h, e.update_isPaced h⟩

theorem declare_paced {ds : List Declarator}
    (h : ∀ d ∈ ds, (∀ e ∈ d.id, e.IsPaced cx) ∧ ∀ e ∈ d.init, e.IsPaced cx)
    (hid : ∀ d ∈ ds, ∃ place name, d.id = some (.ident place name))
    (hinit : ∀ d ∈ ds, ∀ e, d.init = some e → CoreExpr False e) :
    Runs (Paced cx.version False) 0 0 (declare cx.version (declaratorCodes cx ds) false) := by
  rw [declare, declaratorCodes_eq]
  refine .mono (.forM (n := 0) _ ?_ (Int.le_refl _)) (by simp) (Int.le_refl _)
  rw [forall_mem_map]
  intro d hd
  obtain ⟨place, name, hname⟩ := hid d hd
  have hvalue := (h d hd).2
  have hcore := hinit d hd
  obtain ⟨dloc, id, init⟩ := d
  cases hname
  refine declarator_paced rfl rfl fun c hc => ?_
  obtain ⟨e, rfl, rfl⟩ := holeCode_eq_some.1 hc
  exact ((hvalue e rfl).core (hcore e rfl)).declared

theorem forInit_paced {init : Option Node}
    (h : ∀ n ∈ init, n.Holds (Expr.IsPaced cx) (Stmt.IsPaced cx))
    (hn : ∀ n, init = some n → ∃ place ds, n = .stmt (.declare place ds))
    (hcore : ∀ s, init = some (.stmt s) → CoreStmt False s) :
    Runs (Paced cx.version False) 0 0 (forInit (nodeHoleCode cx init)) := by
  cases init with
  | none => exact .neutral (.pure _)
  | some n =>
    obtain ⟨place, ds, rfl⟩ := hn n rfl
    exact (h _ rfl (hcore _ rfl)).declares _ rfl

theorem Stmt.isPaced_of_parts (hv : cx.version.has .subroutineConsumesStack = true)
    (hlogs : cx.logsExceptions = false) (s : Stmt) (h : s.Parts (Expr.IsPaced cx) (Stmt.IsPaced cx)) :
    s.IsPaced cx := by
  intro hcore
  cases hcore with
  | @declare loc ds hid hinit =>
    have hdeclare := declare_paced h hid hinit
    exact { StmtPaced.ofRun (s := .declare loc ds) hdeclare.lift with
      declares := fun _ hd => Option.some.inj hd ▸ hdeclare }
  | expression loc he =>
    have hcode := Expr.IsPaced.core h he
    refine .ofRun (expressionStatement_paced ?_).lift
    rw [hcode.expr, if_pos he.leavesValue]
    exact hcode.value
  | assignment loc he =>
    exact .ofRun (expressionStatement_paced (Expr.IsPaced.update h he)).lift
  | @block loc body hbody =>
    have hinside : Levels cx.version (Emit.body cx.version cx.logsExceptions (stmtCodes cx body)) := by
      rw [hlogs]
      refine runAll_paced ?_
      rw [stmtCodes_eq, forall_mem_map]
      exact fun s hs => (h s hs (hbody s hs)).run
    exact { StmtPaced.ofRun (s := .block loc body) (block_paced _ hinside) with
      block := fun _ hb => Option.some.inj hb ▸ hinside }
  | ifElse loc ht hc ha =>
    have htest := h.1.core ht
    refine .ofRun (ifElse_paced (htest.kept ▸ htest.value) (h.2.1 hc).run fun c hc => ?_)
    obtain ⟨s, rfl, rfl⟩ := stmtHoleCode_eq_some.1 hc
    exact (h.2.2 s rfl (ha s rfl)).run
  | whileLoop loc ht hb =>
    have htest := h.1.core ht
    exact .ofLoop fun label => whileLoop_paced (htest.kept ▸ htest.value) (h.2 hb).run
  | doWhile loc hb ht =>
    have htest := h.1.core ht
    exact .ofLoop fun label => doWhile_paced (h.2 hb).run (htest.kept ▸ htest.value)
  | forLoop loc hn hi ht hu hb =>
    refine .ofLoop fun label => forLoop_paced (forInit_paced h.1 hn hi) (fun c hc => ?_)
      (fun c hc => ?_) (h.2.2.2 hb).run
    · obtain ⟨e, rfl, rfl⟩ := holeCode_eq_some.1 hc
      have htest := (h.2.1 e rfl).core (ht e rfl)
      exact htest.kept ▸ htest.value
    · obtain ⟨e, rfl, rfl⟩ := holeCode_eq_some.1 hc
      exact (h.2.2.1 e rfl).update (hu e rfl)
  | switch loc hd ht hb =>
    refine .ofRun (switch_paced (h.1.core hd).value ?_ ?_)
    all_goals
      rw [caseCodes_eq, forall_mem_map]
      rintro ⟨cloc, test, stmts⟩ hc
    · intro c htest
      obtain ⟨e, rfl, rfl⟩ := holeCode_eq_some.1 htest
      exact (((h.2 _ hc).1 e rfl).core (ht _ hc e rfl)).value
    · change ∀ s ∈ stmtCodes cx stmts, _
      rw [stmtCodes_eq, forall_mem_map]
      exact fun s hs => ((h.2 _ hc).2 s hs (hb _ hc s hs)).run
  | labeled loc label hs => exact .ofRun (labeled_paced (h hs).loop)
  | breakOut loc label => exact .ofRun escapes_paced.1
  | continueLoop loc label => exact .ofRun escapes_paced.2
  | returnValue loc ha =>
    refine .ofRun (returnValue_paced fun c hc => ?_)
    obtain ⟨e, rfl, rfl⟩ := holeCode_eq_some.1 hc
    have hcode := (h e rfl).core (ha e rfl)
    exact hcode.returned ▸ hcode.value
  | throw loc he => exact .ofRun (throw_paced (Expr.IsPaced.core h he).value).lift
  | function loc hnames hbody =>
    exact .ofRun (subroutine_paced false hv (exprCodes_declare _ _) (params_paced h.1 hnames)
      fun _ _ _ hr => blockBody_paced h.2 hbody hr).lift
  | tryCatch _ hwide => exact hwide.elim

/-- Every core statement is paced. -/
theorem Stmt.isPaced (hv : cx.version.has .subroutineConsumesStack = true)
    (hlogs : cx.logsExceptions = false) (s : Stmt) : s.IsPaced cx :=
  Stmt.holds (Expr.isPaced_of_parts hv) (Stmt.isPaced_of_parts hv hlogs) s

end

end Adhoc
