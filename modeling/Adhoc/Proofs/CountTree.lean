import Adhoc.Proofs.CountStmt
import Adhoc.Proofs.TreeInduction
import Adhoc.Proofs.Values

namespace Adhoc

open Emit List Expr

section

variable (lib : Library) (v : Version) (nested : Prop)

/-- What the code of a part does to the depth, if the part is proper. -/
abbrev Part.Counts {α : Type} (p : Part) (n low : Int) (x : Emit α) : Prop :=
  Emit.Counts (p.Proper lib v nested) nested v n low x

/-- What the code of an expression does to the depth in each of its uses, if the expression is
proper. -/
structure ExprCounts (e : Expr) (c : ExprCode) : Prop where
  expr : c.expr = e
  value : (Part.expr e).Counts lib v nested e.gain 0 c.value
  kept : (Part.expr e).Counts lib v nested e.keptGain 0 c.kept
  referred : (Part.expr e).Counts lib v nested e.gain 0 c.referred
  underRefer : (Part.expr e).Counts lib v nested e.gain 0 c.underRefer
  place : (Part.expr e).Counts lib v nested e.gain 0 c.place
  stored : (Part.expr e).Counts lib v nested 1 0 c.stored
  returned : (Part.expr e).Counts lib v nested e.returnedGain 0 c.returned
  steps : Counts ((Part.expr e).Proper lib v nested ∧ e.FitStep) nested v 0 0 c.steps
  asStatic : ∀ loc, Counts ((Part.expr e).Proper lib v nested ∧ e.FitDeclaration) nested v 0 0
    (c.asStatic loc)
  asAttribute : ∀ loc, Counts ((Part.expr e).Proper lib v nested ∧ e.FitDeclaration ∧
    v.has .attributeDefinePops = true) nested v 0 0 (c.asAttribute loc)
  element : ∀ declares isLast, (Part.expr e).Counts lib v nested 1 0
    (c.element declares isLast)
  pattern : ∀ pattern, c.pattern? = some pattern → ∀ declares,
    (Part.expr e).Counts lib v nested (-1) 1 (pattern declares)
  isPattern : c.pattern?.isSome = e.isArrayPattern
  param : ∀ child, (Part.expr e).Counts lib v nested 1 0 (c.param child)
  part : ∀ ⦃s n t⦄, c.part s = .ok (n, t) →
    Tallied ((Part.expr e).Proper lib v nested) nested v n 0 s t

/-- What the code of a statement does to the depth, if the statement is proper. -/
structure StmtCounts (s : Stmt) (c : StmtCode) : Prop where
  stmt : c.stmt = s
  run : (Part.stmt s).Counts lib v nested 0 0 c.run
  block : ∀ body, c.block? = some body →
    (Part.stmt s).Counts lib v nested 0 0 body
  loop : ∀ loop, c.loop? = some loop → ∀ label,
    (Part.stmt s).Counts lib v nested 0 0 (loop label)
  declares : ∀ declares, c.declares? = some declares →
    (Part.stmt s).Counts lib v nested 0 0 (declares false)
  takes : ∀ declares, c.declares? = some declares → v.has .foreach = true →
    Counts ((Part.stmt s).Proper lib v nested ∧ (Node.stmt s).FitNext) nested v (-1) 1
      (declares true)

end

section

variable {lib : Library} {v : Version} {nested : Prop} {p q : Part} {e : Expr} {c : ExprCode}
  {s : Stmt} {k : StmtCode} {α : Type} {n m low : Int} {x : Emit α}

theorem Emit.Runs.ofPart (h : q.Counts lib v nested n low x) (hq : q ∈ p.parts v)
    (hn : p.Fit v nested → n = m) : p.Counts lib v nested m low x :=
  .under h fun hp => ⟨hp.part hq, hn hp.fit, Int.le_refl _⟩

theorem Emit.Runs.part (i : Nat) (h : q.Counts lib v nested n low x) (hq : (p.parts v)[i]? = some q)
    (hn : p.Fit v nested → n = m) : p.Counts lib v nested m low x := h.ofPart (mem_of_getElem? hq) hn

namespace ExprCounts

theorem stepOf {value : Emit Unit}
    (h : (Part.expr e).Counts lib v nested e.gain 0 value) :
    Counts ((Part.expr e).Proper lib v nested ∧ e.FitStep) nested v 0 0
      (ExprCode.stepOf v e value) := by
  have hpop : leavesValue e = true → Counts ((Part.expr e).Proper lib v nested ∧ e.FitStep) nested
      v 0 0 (do
        value
        pop v) := by
    intro hl
    have hone : Counts ((Part.expr e).Proper lib v nested ∧ e.FitStep) nested v 1 0 value :=
      .under h fun hp => ⟨hp.1, hp.2 hl, Int.le_refl _⟩
    exact .push hone fun _ => pop_straight.runs
  unfold ExprCode.stepOf
  split
  · exact hpop rfl
  · exact hpop rfl
  · exact .under h fun hp => ⟨hp.1, rfl, Int.le_refl _⟩
  · exact .reject

theorem ofValue {value : Emit Unit} (hkept : e.keptGain = e.gain) (hreturned : e.returnedGain = e.gain)
    (hpattern : e.isArrayPattern = false)
    (h : (Part.expr e).Counts lib v nested e.gain 0 value) :
    ExprCounts lib v nested e (.ofValue v e value) where
  expr := rfl
  value := h
  kept := hkept ▸ h
  referred := h
  underRefer := h
  place := .reject
  stored := .reject
  returned := hreturned ▸ h
  steps := stepOf h
  asStatic _ := .reject
  asAttribute _ := .reject
  element _ _ := .reject
  pattern _ hp := nomatch hp
  isPattern := hpattern.symm
  param _ := .reject
  part _ _ _ hr := (reject_ok.1 hr).elim

theorem target (h : ExprCounts lib v nested e c) :
    (Part.expr e).Counts lib v nested 1 0 c.target := by
  unfold ExprCode.target
  rw [h.expr]
  split
  · exact h.value
  iterate 4 exact h.place
  exact .reject

theorem declared (h : ExprCounts lib v nested e c) :
    (Part.expr e).Counts lib v nested e.keptGain 0 c.declared := by
  unfold ExprCode.declared
  rw [h.expr]
  split
  · exact h.referred
  · exact h.kept

theorem passed (h : ExprCounts lib v nested e c) :
    (Part.expr e).Counts lib v nested e.gain 0 c.passed := by
  unfold ExprCode.passed
  rw [h.expr]
  split
  · exact .reject
  · exact h.referred

theorem store (h : ExprCounts lib v nested e c) (drops : Bool) :
    (Part.expr e).Counts lib v nested
      (if e.isArrayPattern || drops then -1 else 0) 1 (c.store v drops) :=
  store_runs h.stored (fun pattern hp => h.pattern pattern hp false) (by rw [h.isPattern])

end ExprCounts

namespace StmtCounts

theorem ofRun {run : Emit Unit} (h : (Part.stmt s).Counts lib v nested 0 0 run) :
    StmtCounts lib v nested s (.ofRun s run) where
  stmt := rfl
  run := h
  block _ hb := nomatch hb
  loop _ hl := nomatch hl
  declares _ hd := nomatch hd
  takes _ hd := nomatch hd

theorem ofLoop {loop : Option String → Emit Unit}
    (h : ∀ label, (Part.stmt s).Counts lib v nested 0 0 (loop label)) :
    StmtCounts lib v nested s (.ofLoop s loop) :=
  { StmtCounts.ofRun (h none) with
    loop := fun _ hl label => Option.some.inj hl ▸ h label }

end StmtCounts

end

section

variable {cx : Context} {nested : Prop}

/-- The property of an expression that is proved by induction over trees. -/
abbrev Expr.IsCounted (cx : Context) (nested : Prop) (e : Expr) : Prop :=
  ExprCounts (cx.library none) cx.version nested e (e.code cx)

abbrev Stmt.IsCounted (cx : Context) (nested : Prop) (s : Stmt) : Prop :=
  StmtCounts (cx.library none) cx.version nested s (s.code cx)

/-- A part is proper in the context. -/
abbrev Part.IsProper (cx : Context) (nested : Prop) (p : Part) : Prop :=
  p.Proper (cx.library none) cx.version nested

abbrev Part.IsCounted {α : Type} (cx : Context) (nested : Prop) (p : Part) (n low : Int)
    (x : Emit α) : Prop := p.Counts (cx.library none) cx.version nested n low x

variable {p : Part} {es : List Expr} {loc : Loc} {e a b : Expr} {n : Node}

theorem ident_counted (name : String) : (Expr.ident loc name).IsCounted cx nested :=
  { ExprCounts.ofValue rfl rfl rfl (identifier_straight loc name).runs with
    place := (pushName_straight _ _ _).runs
    stored := (pushName_straight _ _ _).runs
    asStatic := fun _ => (staticName_straight _ _ _).runs
    asAttribute := fun _ => attributeName_counts name fun h => h.2.2
    element := fun _ _ => .last (pushName_straight _ _ _).runs fun _ => .pure _
    param := fun _ => (nameParameter_straight _ _ _).runs }

theorem array_counted {elements : List (Option Expr)}
    (h : ∀ e, some e ∈ elements → e.IsCounted cx nested) :
    (Expr.array loc elements).IsCounted cx nested := by
  refine .ofValue rfl rfl rfl (array_runs fun c hc => ?_)
  rw [holeCodes_eq, mem_map] at hc
  obtain ⟨o, ho, hoc⟩ := hc
  obtain ⟨e, rfl, rfl⟩ := Option.map_eq_some_iff.1 hoc
  refine .ofPart (h e ho).value ?_ fun hf => hf e ho
  exact mem_map_of_mem (mem_filterMap.2 ⟨some e, ho, rfl⟩)

theorem map_counted {entries : List (Expr × Expr)}
    (h : ∀ p ∈ entries, p.1.IsCounted cx nested ∧ p.2.IsCounted cx nested) :
    (Expr.map loc entries).IsCounted cx nested := by
  refine .ofValue rfl rfl rfl (map_runs ?_)
  rw [pairCodes_eq, forall_mem_map]
  intro p hp
  have hmem : ∀ q, q = Part.expr p.1 ∨ q = .expr p.2 →
      q ∈ Part.parts cx.version (.expr (.map loc entries)) :=
    fun q hq => mem_flatMap.2 ⟨p, hp, by simpa using hq⟩
  exact ⟨.ofPart (h p hp).1.value (hmem _ (.inl rfl)) fun hf => (hf p hp).1,
    .ofPart (h p hp).2.value (hmem _ (.inr rfl)) fun hf => (hf p hp).2⟩

theorem path_counted : (Expr.path loc a b).IsCounted cx nested :=
  { ExprCounts.ofValue rfl rfl rfl (member_straight _ _ _).runs with
    place := (member_straight _ _ _).runs
    stored := (member_straight _ _ _).runs }

theorem Expr.gain_of_isDefault (h : isDefault e = true) : e.gain = 1 := by
  cases e <;> first | rfl | cases h

theorem assignPattern_counted (hb : b.IsCounted cx nested) :
    (Expr.assignPattern loc a b).IsCounted cx nested :=
  { ExprCounts.ofValue rfl rfl rfl .reject with
    param := fun child => patternParameter_runs child fun hdefault =>
      .part 0 hb.value rfl fun _ =>
        gain_of_isDefault (hb.expr ▸ hdefault) }

theorem rest_counted : (Expr.rest loc a).IsCounted cx nested :=
  { ExprCounts.ofValue rfl rfl rfl .reject with
    element := fun _ _ => (restElement_straight _ _ _ _).runs
    param := fun _ => (restParameter_straight _ _ _).runs }

section

variable (h : ∀ e ∈ es, e.IsCounted cx nested)
include h

theorem params_counts (hp : ∀ e ∈ es, Part.expr e ∈ p.parts cx.version) :
    ∀ c ∈ exprCodes cx es, ∀ child,
      p.IsCounted cx nested 1 0 (c.param child) := by
  rw [exprCodes_eq, forall_mem_map]
  intro e he child
  exact .ofPart ((h e he).param child) (hp e he) fun _ => rfl

theorem values_counts (hp : ∀ e ∈ es, Part.expr e ∈ p.parts cx.version)
    (hfit : p.Fit cx.version nested → ∀ e ∈ es, e.gain = 1) :
    ∀ c ∈ exprCodes cx es, p.IsCounted cx nested 1 0 c.value := by
  rw [exprCodes_eq, forall_mem_map]
  exact fun e he => .ofPart (h e he).value (hp e he) fun hf => hfit hf e he

theorem call_counted (ha : a.IsCounted cx nested) :
    (Expr.call loc a es).IsCounted cx nested := by
  have hname : (a.code cx).name? = a.ident? := by rw [ExprCode.name?, ha.expr]
  have hmem : ∀ e ∈ es, Part.expr e ∈ Part.parts cx.version (.expr (.call loc a es)) :=
    fun e he => mem_cons_of_mem _ (mem_map_of_mem he)
  have hvalue : (Part.expr (.call loc a es)).IsCounted cx nested
      (Expr.call loc a es).gain 0 (call cx.version loc (a.code cx) (exprCodes cx es)) := by
    refine call_runs ?_ (fun _ => values_counts h hmem fun hf => hf.2) fun hn => ⟨?_, ?_⟩
    · rw [hname, exprCodes_eq, length_map]
      rfl
    · exact .part 0 ha.value rfl fun hf => hf.1 (hname ▸ hn)
    · rw [exprCodes_eq, forall_mem_map]
      exact fun e he => .ofPart (h e he).passed (hmem e he) fun hf => hf.2 e he
  exact { ExprCounts.ofValue rfl rfl rfl hvalue with place := hvalue }

theorem arrayPattern_counted :
    (Expr.arrayPattern loc es).IsCounted cx nested := by
  have hpattern : ∀ declares, (Part.expr (.arrayPattern loc es)).IsCounted cx nested (-1) 1
      (arrayPattern cx.version loc (exprCodes cx es) declares) := by
    intro declares
    refine arrayPattern_counts (fun hp => hp.fit) ?_
    rw [exprCodes_eq, forall_mem_map]
    exact fun e he isLast => .ofPart ((h e he).element declares isLast) (mem_map_of_mem he)
      fun _ => rfl
  have hnothing : (Part.expr (.arrayPattern loc es)).IsCounted cx nested
      1 0 (reject loc (.unsupportedExpression "ArrayPattern") : Emit Unit) := .reject
  exact
    { expr := rfl
      value := hnothing
      kept := hnothing
      referred := hnothing
      underRefer := hnothing
      place := .reject
      stored := .reject
      returned := hnothing
      steps := .reject
      asStatic := fun _ => .reject
      asAttribute := fun _ => .reject
      element := fun _ _ => .reject
      pattern := fun _ hp declares => Option.some.inj hp ▸ hpattern declares
      isPattern := rfl
      param := fun _ => .reject
      part := fun _ _ _ hr => (reject_ok.1 hr).elim }

theorem template_counted {quasis : List Quasi} :
    (Expr.template loc quasis es).IsCounted cx nested := by
  have hvalues : ∀ c ∈ (exprCodes cx es).take quasis.length,
      (Part.expr (.template loc quasis es)).IsCounted cx nested 1 0
        c.value := by
    rw [take_exprCodes]
    exact values_counts (fun e he => h e (mem_of_mem_take he))
      (fun e he => mem_map_of_mem he) fun hf => hf
  exact { ExprCounts.ofValue rfl rfl rfl (template_counts hvalues) with
    part := fun _ _ _ hr => templateParts_tallied hvalues hr }

theorem tagged_counted :
    (Expr.tagged loc es).IsCounted cx nested := by
  have hparts : ∀ c ∈ exprCodes cx es, ∀ ⦃s n t⦄, c.part s = .ok (n, t) →
      Tallied ((Part.expr (.tagged loc es)).IsProper cx nested) nested cx.version n 0 s t := by
    rw [exprCodes_eq, forall_mem_map]
    exact fun e he s n t hr => ((h e he).part hr).under fun hp =>
      ⟨hp.part (mem_map_of_mem he), rfl, Int.le_refl _⟩
  exact { ExprCounts.ofValue rfl rfl rfl (tagged_counts hparts) with
    part := fun _ _ _ hr => taggedParts_tallied hparts hr }

theorem sequence_counted :
    (Expr.sequence loc es).IsCounted cx nested := by
  have hsteps : ∀ c ∈ exprCodes cx es,
      (Part.expr (.sequence loc es)).IsCounted cx nested 0 0
        (c.step cx.version) := by
    rw [exprCodes_eq, forall_mem_map]
    intro e he
    rw [ExprCode.step, (h e he).expr]
    exact .under (ExprCounts.stepOf (h e he).value) fun hp =>
      ⟨⟨hp.part (mem_map_of_mem he), hp.fit e he⟩, rfl, Int.le_refl _⟩
  exact { ExprCounts.ofValue rfl rfl rfl .reject with
    steps := .under (.forM _ hsteps (Int.le_refl _)) fun hp => ⟨hp.1, by simp, Int.le_refl _⟩ }

end

theorem closureBody_counted (h : n.Holds (Expr.IsCounted cx nested) (Stmt.IsCounted cx nested))
    (hp : p.body? = some n)
    (hfit : p.Fit cx.version nested → nested → ∀ e, n = .expr e → e.gain = 1) :
    Counts (p.IsProper cx nested ∧ nested) nested cx.version 0 0
      (closureBody cx.version (n.code cx)) := by
  refine closureBody_counts (fun c hc => ?_) fun c hc => ?_
  · cases n <;> cases hc
    exact .under h.run fun hpr => ⟨hpr.1.body hpr.2 hp, rfl, Int.le_refl _⟩
  · cases n <;> cases hc
    exact .under h.value fun hpr =>
      ⟨hpr.1.body hpr.2 hp, hfit hpr.1.fit hpr.2 _ rfl, Int.le_refl _⟩

theorem blockBody_counted (h : n.Holds (Expr.IsCounted cx nested) (Stmt.IsCounted cx nested))
    (hp : p.body? = some n) {body : Emit Unit} {r r' : Session}
    (hr : NodeCode.blockBody (n.code cx) r = .ok (body, r')) :
    Counts (p.IsProper cx nested ∧ nested) nested cx.version 0 0 body := by
  cases n with
  | expr e => exact (reject_ok.1 hr).elim
  | stmt s =>
    simp only [Node.code, NodeCode.blockBody] at hr
    cases hb : (s.code cx).block? with
    | none =>
      simp only [hb] at hr
      exact (reject_ok.1 hr).elim
    | some block =>
      simp only [hb, pure_ok] at hr
      obtain ⟨rfl, -⟩ := hr
      exact .under (h.block _ hb) fun hpr => ⟨hpr.1.body hpr.2 hp, rfl, Int.le_refl _⟩

theorem function_counted {r : Routine} (hparams : ∀ e ∈ r.params, e.IsCounted cx nested)
    (hbody : r.body.Holds (Expr.IsCounted cx nested) (Stmt.IsCounted cx nested)) :
    (Expr.function loc r).IsCounted cx nested := by
  obtain ⟨id, params, body⟩ := r
  have hdefaults := params_counts (p := .expr (.function loc ⟨id, params, body⟩)) hparams
    fun e he => mem_map_of_mem he
  refine ExprCounts.ofValue rfl rfl rfl ?_
  cases id with
  | none =>
    exact closure_counts false (exprCodes_declare _ _) hdefaults
      (closureBody_counted hbody rfl fun hf hn e he => hf hn e he)
  | some id =>
    exact subroutine_counts false (exprCodes_declare _ _) hdefaults
      fun _ _ _ hr => blockBody_counted hbody rfl hr

theorem Expr.assign_parts (v : Version) (op : AssignOp) {q : Part} (hq : q = .expr a ∨ q = .expr b) :
    q ∈ Part.parts v (.expr (.assign loc op a b)) := by
  simp only [Part.parts, Expr.parts]
  split <;> simp [hq, hq.symm]

section

variable (ha : a.IsCounted cx nested)
include ha

theorem unary_counted (op : UnaryOp) :
    (Expr.unary loc op a).IsCounted cx nested := by
  have hvalue : ∀ op, (Part.expr (.unary loc op a)).IsCounted cx nested 1 0
      (unary cx.version loc op (a.code cx)) := fun op =>
    unary_runs op (.part 0 ha.value rfl fun hf => hf) (.part 0 ha.underRefer rfl fun hf => hf)
  have hstored : ∀ op, (Part.expr (.unary loc op a)).IsCounted cx nested
      1 0 (storedThrough (a.code cx)) := fun op =>
    storedThrough_runs (.part 0 ha.value rfl fun hf => hf)
  have hwhole := fun op => ExprCounts.ofValue (e := .unary loc op a) rfl rfl rfl (hvalue op)
  cases op
  case refer =>
    exact { hwhole .refer with
      referred := .part 0 ha.place rfl fun hf => hf
      stored := hstored _ }
  case follow => exact { hwhole .follow with stored := hstored _ }
  all_goals exact hwhole _

theorem update_counted (op : UpdateOp) (prior : Bool) :
    (Expr.update loc op prior a).IsCounted cx nested :=
  { ExprCounts.ofValue (e := .update loc op prior a) rfl rfl rfl
      (updated_runs op prior (.part 0 ha.place rfl fun hf => hf)) with
    underRefer := updated_runs op prior (.part 0 ha.value rfl fun hf => hf) }

theorem attribute_counted (optional : Bool) :
    (Expr.attribute loc a b optional).IsCounted cx nested := by
  have hobject : (Part.expr (.attribute loc a b optional)).IsCounted cx nested 1 0
      (a.code cx).value := .part 0 ha.value rfl fun hf => hf
  have hplace := pushAttribute_runs b hobject
  exact { ExprCounts.ofValue rfl rfl rfl (attributeMember_runs b optional hobject) with
    place := hplace
    stored := hplace
    element := fun _ _ => .last hplace fun _ => .pure _ }

theorem await_counted : (Expr.await loc a).IsCounted cx nested := by
  refine .ofValue rfl rfl rfl (await_counts (awaitedTask_counts (fun l callee arguments hc => ?_)
    fun hc => ?_))
  · rw [ha.expr] at hc
    subst hc
    exact .under ha.value fun hp => ⟨hp.1.body hp.2 rfl, hp.1.fit hp.2, Int.le_refl _⟩
  · rw [ha.expr] at hc
    refine .ofPart ha.value ?_ fun hf => ?_
    · cases a <;> first | exact mem_singleton_self _ | exact absurd rfl (hc _ _ _)
    · cases a <;> first | exact hf | exact absurd rfl (hc _ _ _)

variable (hb : b.IsCounted cx nested)
include hb

theorem binary_counted (op : BinaryOp) :
    (Expr.binary loc op a b).IsCounted cx nested := by
  have hvalue : (Part.expr (.binary loc op a b)).IsCounted cx nested 1 0
      (binary cx.version loc op (a.code cx) (b.code cx)) :=
    binary_runs op (.part 0 ha.kept rfl fun hf => hf.1) (.part 1 hb.value rfl fun hf => hf.2)
  exact { ExprCounts.ofValue rfl rfl rfl hvalue with place := hvalue }

theorem logical_counted (op : LogicalOp) :
    (Expr.logical loc op a b).IsCounted cx nested :=
  .ofValue rfl rfl rfl (logical_counts op (.part 0 ha.kept rfl fun hf => hf.1)
    (.part 1 hb.value rfl fun hf => hf.2))

theorem element_counted (optional : Bool) :
    (Expr.element loc a b optional).IsCounted cx nested := by
  have hobject : (Part.expr (.element loc a b optional)).IsCounted cx nested 1 0
      (a.code cx).value := .part 0 ha.value rfl fun hf => hf.1
  have hproperty : (Part.expr (.element loc a b optional)).IsCounted cx nested 1 0
      (b.code cx).value := .part 1 hb.value rfl fun hf => hf.2
  have hplace : Counts _ nested cx.version 1 0 (elementMember _ .push loc _ _) :=
    elementMember_runs .push hobject hproperty
  exact { ExprCounts.ofValue rfl rfl rfl (.ite (optionalElement_runs hobject hproperty)
      (elementMember_runs .eval hobject hproperty)) with
    place := hplace
    stored := hplace }

theorem selector_counted :
    (Expr.selector loc a b).IsCounted cx nested := by
  have hvalue : (Part.expr (.selector loc a b)).IsCounted cx nested 1 0
      (selector cx.version loc (a.code cx) (b.code cx)) :=
    selector_runs (.part 0 ha.value rfl fun hf => hf.1) (.part 1 hb.value rfl fun hf => hf.2)
  exact { ExprCounts.ofValue rfl rfl rfl hvalue with
    place := .reject
    stored := hvalue }

theorem conditional_counted {d : Expr}
    (hd : d.IsCounted cx nested) : (Expr.conditional loc a b d).IsCounted cx nested :=
  .ofValue rfl rfl rfl (conditional_counts (.part 0 ha.value rfl fun hf => hf.1)
    (.part 1 hb.referred rfl fun hf => hf.2.1) (.part 2 hd.value rfl fun hf => hf.2.2))

theorem assignment_counted (op : AssignOp) (drops : Bool) :
    (Part.expr (.assign loc op a b)).IsCounted cx nested
      (if a.isArrayPattern || drops then 0 else 1) 0
      (assignment cx.version loc op (a.code cx) (b.code cx) drops) := by
  have hkept : op ≠ .assign ∨ cx.version.has .valueBeforePush = true →
      (Part.expr (.assign loc op a b)).IsCounted cx nested 1 0
        (b.code cx).kept := by
    refine fun hop => .ofPart hb.kept (assign_parts _ op (.inr rfl)) fun hf => ?_
    have hf := hf.1
    rwa [if_neg (by rcases hop with h | h <;> simp [h])] at hf
  have hstore : (Part.expr (.assign loc op a b)).IsCounted cx nested
      ((if a.isArrayPattern || drops then 0 else 1) - 1) 1 ((a.code cx).store cx.version drops) :=
    .ofPart (ha.store drops) (assign_parts _ op (.inl rfl)) fun _ => by split <;> rfl
  cases hpattern : a.isArrayPattern with
  | true =>
    -- Before version 11, and by other operators, nothing is assigned to a pattern.
    simp only [hpattern] at hstore
    cases a <;> cases hpattern
    simp only [assignment, beq_iff_eq]
    by_cases hop : op = .assign
    · rw [if_pos hop, plainAssignment]
      by_cases hv : cx.version.has .valueBeforePush = true
      · rw [if_pos hv]
        exact .seq (hkept (.inr hv)) (fun _ => hstore) ⟨rfl, by decide, by decide⟩
      · rw [if_neg hv]
        exact .rejectThen _ _ _
    · rw [if_neg hop]
      exact .skip .require fun _ => .rejectThen _ _ _
  | false =>
    have htarget : (Part.expr (.assign loc op a b)).IsCounted cx nested
        1 0 (a.code cx).target := .ofPart ha.target (assign_parts _ op (.inl rfl)) fun _ => rfl
    simp only [hpattern, Bool.false_or] at hstore
    simp only [assignment, beq_iff_eq, Bool.false_or]
    by_cases hop : op = .assign
    · rw [if_pos hop]
      refine plainAssignment_runs (fun hv => hkept (.inr hv)) (fun _ => hstore) htarget
        (fun hv => .ofPart hb.referred (assign_parts _ op (.inr rfl)) fun hf => ?_) fun _ => rfl
      have hf := hf.1
      rwa [if_pos ⟨hop, hv⟩] at hf
    · rw [if_neg hop]
      refine .refit (compoundAssignment_runs op htarget (hkept (.inl hop)) rfl) fun hp => ?_
      simp [compoundLoss, hp.fit.2.resolve_left hop]

theorem assign_counted (op : AssignOp) :
    (Expr.assign loc op a b).IsCounted cx nested := by
  have hvalue : (Part.expr (.assign loc op a b)).IsCounted cx nested 0 0
      (assignment cx.version loc op (a.code cx) (b.code cx) true) :=
    .mono (assignment_counted ha hb op true) (by simp) (Int.le_refl _)
  have hkept : (Part.expr (.assign loc op a b)).IsCounted cx nested
      (Expr.assign loc op a b).keptGain 0
      (assignment cx.version loc op (a.code cx) (b.code cx) false) := by
    refine .mono (assignment_counted ha hb op false) ?_ (Int.le_refl _)
    cases a <;> rfl
  have hright : ∀ q : Prop, (q → b.gain = 1) → Counts
      ((Part.expr (.assign loc op a b)).IsProper cx nested ∧ q) nested cx.version 1 0
      (b.code cx).value := fun q hq =>
    .under hb.value fun hp => ⟨hp.1.part (assign_parts _ op (.inr rfl)), hq hp.2, Int.le_refl _⟩
  exact
    { expr := rfl
      value := hvalue
      kept := hkept
      referred := hvalue
      underRefer := hvalue
      place := .reject
      stored := .reject
      returned := .after hvalue fun _ => .ofPart ha.value (assign_parts _ op (.inl rfl)) fun _ => rfl
      steps := ExprCounts.stepOf hvalue
      asStatic := fun _ => staticAssignment_counts op (fun hp => hp.1.fit.2) (hright _ fun hq => hq)
        fun _ => .under (ha.store true) fun hp =>
          ⟨hp.1.part (assign_parts _ op (.inl rfl)), by simp, Int.le_refl _⟩
      asAttribute := fun _ => attributeAssignment_counts (fun hp => hp.2.2) (hright _ fun hq => hq.1)
      element := fun _ _ => .reject
      pattern := fun _ hp => nomatch hp
      isPattern := rfl
      param := fun child => assignedParameter_runs child fun hliteral =>
        .ofPart hb.value (assign_parts _ op (.inr rfl)) fun _ => by
          rw [hb.expr] at hliteral
          cases b <;> cases hliteral
          rfl
      part := fun _ _ _ hr => (reject_ok.1 hr).elim }

end

theorem classBody_counted {d : ClassDef} {p : Part}
    (hp : ∀ s ∈ d.body, Part.stmt s ∈ p.parts cx.version)
    (h : ∀ s ∈ d.body, s.IsCounted cx nested) :
    ∀ c ∈ (d.code cx).body, p.IsCounted cx nested 0 0 c.run := by
  obtain ⟨id, superClass, body, isModule⟩ := d
  change ∀ c ∈ stmtCodes cx body, _
  rw [stmtCodes_eq, forall_mem_map]
  exact fun s hs => .ofPart (h s hs).run (hp s hs) fun _ => rfl

theorem Expr.isCounted_of_parts (e : Expr)
    (h : e.Parts (Expr.IsCounted cx nested) (Stmt.IsCounted cx nested)) : e.IsCounted cx nested := by
  cases e with
  | ident loc name => exact ident_counted name
  | function loc r => exact function_counted h.1 h.2
  | method loc r =>
    obtain ⟨id, params, body⟩ := r
    exact .ofValue rfl rfl rfl (closure_counts true (exprCodes_declare _ _)
      (params_counts h.1 fun e he => mem_map_of_mem he)
      (closureBody_counted h.2 rfl fun hf hn e he => hf hn e he))
  | arrow loc r =>
    obtain ⟨id, params, body⟩ := r
    exact .ofValue rfl rfl rfl (closure_counts false (exprCodes_declare _ _)
      (params_counts h.1 fun e he => mem_map_of_mem he)
      (closureBody_counted h.2 rfl fun hf hn e he => hf hn e he))
  | call loc callee arguments => exact call_counted h.2 h.1
  | unary loc op a => exact unary_counted h op
  | update loc op prior a => exact update_counted h op prior
  | binary loc op a b => exact binary_counted h.1 h.2 op
  | logical loc op a b => exact logical_counted h.1 h.2 op
  | literal loc value =>
    exact { ExprCounts.ofValue rfl rfl rfl (literal_straight _ _).runs with
      place := (literal_straight _ _).runs }
  | array loc elements => exact array_counted h
  | map loc entries => exact map_counted h
  | element loc a b optional => exact element_counted h.1 h.2 optional
  | path loc a b => exact path_counted
  | «attribute» loc a b optional => exact attribute_counted h.1 optional
  | selector loc a b => exact selector_counted h.1 h.2
  | assign loc op a b => exact assign_counted h.1 h.2 op
  | assignPattern loc a b => exact assignPattern_counted h.2
  | arrayPattern loc es => exact arrayPattern_counted h
  | rest loc a => exact rest_counted
  | conditional loc a b d => exact conditional_counted h.1 h.2.1 h.2.2
  | template loc quasis es => exact template_counted h
  | tagged loc es => exact tagged_counted h
  | sequence loc es => exact sequence_counted h
  | staticDecl loc a =>
    exact .ofValue rfl rfl rfl (.under (h.asStatic loc) fun hp =>
      ⟨⟨hp.part (mem_singleton_self _), hp.fit⟩, rfl, Int.le_refl _⟩)
  | attributeDecl loc a =>
    exact .ofValue rfl rfl rfl (.under (h.asAttribute loc) fun hp =>
      ⟨⟨hp.part (mem_singleton_self _), hp.fit⟩, rfl, Int.le_refl _⟩)
  | classDef loc d =>
    have hbody := classBody_counted (p := .expr (.classDef loc d))
      (fun s hs => mem_map_of_mem hs) h
    exact { ExprCounts.ofValue rfl rfl rfl (classDef_counts false hbody) with
      asStatic := fun _ => .under (staticClass_counts hbody) fun hp => ⟨hp.1, rfl, Int.le_refl _⟩ }
  | importName loc specifiers target asName =>
    exact .ofValue rfl rfl rfl (importName_straight _ _ _ _).runs
  | yield loc => exact .ofValue rfl rfl rfl (yield_straight _).runs
  | await loc a => exact await_counted h
  | spread loc a =>
    exact .ofValue rfl rfl rfl (.part 0 h.value rfl fun hf => hf)
  | selfRef loc => exact .ofValue rfl rfl rfl (selfValue_straight _).runs

end

end Adhoc
