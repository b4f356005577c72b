import Adhoc.Proofs.Compilation
import Adhoc.Proofs.CountTree

namespace Adhoc

open Emit List

section

variable {cx : Context} {nested : Prop} {p : Part} {loc : Loc} {s body : Stmt} {e : Expr} {n : Node}

theorem declarators_counted {ds : List Declarator}
    (h : ∀ d ∈ ds, (∀ e ∈ d.id, e.IsCounted cx nested) ∧ ∀ e ∈ d.init, e.IsCounted cx nested)
    {fit : Prop} (fromStack : Bool)
    (hfit : fit → (Part.stmt (.declare loc ds)).IsProper cx nested)
    (hstack : fit → fromStack = true → cx.version.has .valueBeforePush = true) :
    ∀ d ∈ ds, Counts fit nested cx.version (if d.init.isNone && fromStack then -1 else 0)
      (if d.init.isNone && fromStack then 1 else 0)
      (declarator cx.version fromStack (d.code cx)) := by
  intro d hd
  have hpart : ∀ e, e ∈ d.id ∨ e ∈ d.init → fit → (Part.expr e).IsProper cx nested :=
    fun e he hf => (hfit hf).part (mem_flatMap.2 ⟨d, hd, d.mem_parts _ he⟩)
  have hfits : fit → d.Fit := fun hf => (hfit hf).fit d hd
  obtain ⟨hid, hinit⟩ := h d hd
  obtain ⟨dloc, id, init⟩ := d
  have hnone : (Declarator.code cx ⟨dloc, id, init⟩).init.isNone = init.isNone := by
    cases init <;> rfl
  suffices hd : Counts fit nested cx.version
      (if (Declarator.code cx ⟨dloc, id, init⟩).init.isNone && fromStack then -1 else 0)
      (if (Declarator.code cx ⟨dloc, id, init⟩).init.isNone && fromStack then 1 else 0)
      (declarator cx.version fromStack (Declarator.code cx ⟨dloc, id, init⟩)) by
    rwa [hnone] at hd
  refine declarator_counts hstack (fun c hc => ?_) (fun c hc l es he => ?_)
    fun c hc pattern hp => ⟨?_, fun hf => ?_⟩
  · obtain ⟨e, rfl, rfl⟩ := holeCode_eq_some.1 hc
    exact .under (hinit e rfl).declared fun hf =>
      ⟨hpart e (.inr rfl) hf, (hfits hf).1 e rfl, Int.le_refl _⟩
  all_goals obtain ⟨e, rfl, rfl⟩ := holeCode_eq_some.1 hc
  · rw [(hid e rfl).isPattern]
    rw [(hid e rfl).expr] at he
    rw [he]
    rfl
  · exact .under ((hid e rfl).pattern pattern hp true) fun hf =>
      ⟨hpart e (.inl rfl) hf, rfl, Int.le_refl _⟩
  · have hpattern : e.isArrayPattern = true := by
      rw [← (hid e rfl).isPattern, hp]
      rfl
    have hvalue : init.isSome = true := (hfits hf).2 e rfl hpattern
    have hlist : cx.version.has .newListAssign = true := by
      have hfit := (hpart e (.inl rfl) hf).fit
      cases e <;> cases hpattern
      exact hfit
    refine ⟨?_, hlist⟩
    cases init with
    | none => cases hvalue
    | some init => rfl

theorem takes_counted {ds : List Declarator} (hv : cx.version.has .foreach = true)
    (h : ∀ d ∈ ds, (∀ e ∈ d.id, e.IsCounted cx nested) ∧ ∀ e ∈ d.init, e.IsCounted cx nested) :
    Counts ((Part.stmt (.declare loc ds)).IsProper cx nested ∧
      (Node.stmt (.declare loc ds)).FitNext) nested cx.version (-1) 1
      (declare cx.version (declaratorCodes cx ds) true) := by
  have hds : ∀ d ∈ ds, Counts ((Part.stmt (.declare loc ds)).IsProper cx nested ∧
      (Node.stmt (.declare loc ds)).FitNext) nested cx.version
      (if d.init.isNone && true then -1 else 0) (if d.init.isNone && true then 1 else 0)
      (declarator cx.version true (d.code cx)) :=
    declarators_counted h true (fun hf => hf.1) fun _ _ => hv
  by_cases hnext : (Node.stmt (.declare loc ds)).FitNext
  · obtain ⟨d, rfl, hd⟩ := hnext
    have hone := hds d (mem_singleton_self d)
    rw [hd] at hone
    exact .last hone fun _ => .pure _
  · rw [declare, declaratorCodes_eq]
    refine .refit (.forM (n := 0) _ ?_ (Int.le_refl _)) fun hf => absurd hf.2 hnext
    rw [forall_mem_map]
    exact fun d hd => .refit (hds d hd) fun hf => absurd hf.2 hnext

theorem Expr.gain_of_fitStep (h : e.FitStep) : e.gain = if leavesValue e then 1 else 0 := by
  by_cases hl : leavesValue e = true
  · rw [if_pos hl, h hl]
  · rw [if_neg hl]
    cases e <;> first | rfl | exact absurd rfl hl | skip
    rename_i r
    have hid : ¬ r.id.isNone = true := hl
    rw [Expr.gain, if_pos (by simpa [Option.isSome_iff_ne_none] using hid)]

theorem forInit_counted {init : Option Node}
    (h : ∀ n ∈ init, n.Holds (Expr.IsCounted cx nested) (Stmt.IsCounted cx nested))
    (hp : ∀ n ∈ init, n.part ∈ p.parts cx.version)
    (hfit : p.Fit cx.version nested → ∀ e, init = some (.expr e) → e.gain = 0) :
    p.IsCounted cx nested 0 0 (forInit (nodeHoleCode cx init)) := by
  cases init with
  | none => exact .neutral (.pure _)
  | some n =>
    have hn := h n rfl
    have hpart := hp n rfl
    cases n with
    | stmt s =>
      simp only [nodeHoleCode, Node.code, forInit]
      cases hd : (s.code cx).declares? with
      | none => exact .reject
      | some declares => exact .ofPart (hn.declares _ hd) hpart fun _ => rfl
    | expr e =>
      have hvalue : p.IsCounted cx nested 0 0 (e.code cx).value :=
        .ofPart hn.value hpart fun hf => hfit hf e rfl
      simp only [nodeHoleCode, Node.code, forInit]
      split
      · exact hvalue
      · exact hvalue
      · exact .reject

theorem foreachLeft_counted (hv : cx.version.has .foreach = true)
    (h : n.Holds (Expr.IsCounted cx nested) (Stmt.IsCounted cx nested))
    (hp : n.part ∈ p.parts cx.version) (hfit : p.Fit cx.version nested → n.FitNext) :
    p.IsCounted cx nested (-1) 1 (foreachLeft (n.code cx)) := by
  cases n with
  | stmt s =>
    simp only [Node.code, foreachLeft]
    cases hd : (s.code cx).declares? with
    | none => exact .reject
    | some declares =>
      exact .under (h.takes _ hd hv) fun hpr => ⟨⟨hpr.part hp, hfit hpr.fit⟩, rfl, Int.le_refl _⟩
  | expr e =>
    simp only [Node.code, foreachLeft]
    cases hd : (e.code cx).pattern? with
    | none => exact .reject
    | some pattern => exact .ofPart (h.pattern _ hd false) hp fun _ => rfl

/-- Included files leave the depth as it was. -/
def Context.FollowCounts (cx : Context) (nested : Prop) : Prop :=
  ∀ program : Program, Counts (∀ s ∈ program.body, (Part.stmt s).IsProper cx nested) nested
    cx.version 0 0 (cx.follow program.body)

/-- The code of a statement keeps its account if the codes of its parts do, and included files do. -/
theorem Stmt.isCounted_of_parts (hfollow : cx.FollowCounts nested) (s : Stmt)
    (h : s.Parts (Expr.IsCounted cx nested) (Stmt.IsCounted cx nested)) :
    s.IsCounted cx nested := by
  cases s with
  | classDef loc d =>
    exact .ofRun (classDef_counts false (classBody_counted (fun s hs => mem_map_of_mem hs) h))
  | function loc r =>
    obtain ⟨id, params, body⟩ := r
    refine .ofRun ?_
    cases id with
    | none => exact .neutral (.pure _)
    | some id =>
      exact subroutine_counts false (exprCodes_declare _ _)
        (params_counts h.1 fun e he => mem_map_of_mem he)
        fun _ _ _ hr => blockBody_counted h.2 rfl hr
  | method loc r =>
    obtain ⟨id, params, body⟩ := r
    exact .ofRun (subroutine_counts true (exprCodes_declare _ _)
      (params_counts h.1 fun e he => mem_map_of_mem he)
      fun _ _ _ hr => blockBody_counted h.2 rfl hr)
  | forLoop loc init test update body =>
    refine .ofLoop fun label => forLoop_counts
      (forInit_counted h.1 (fun n hn => ?_) fun hf => hf.1) (fun c hc => ?_) (fun c hc => ?_)
      (.ofPart h.2.2.2.run (by simp [Part.parts, Stmt.parts]) fun _ => rfl)
    · obtain rfl := Option.mem_def.1 hn
      exact mem_cons_self
    · obtain ⟨e, rfl, rfl⟩ := holeCode_eq_some.1 hc
      exact .ofPart (h.2.1 e rfl).kept (by simp [Part.parts, Stmt.parts]) fun hf => hf.2.1 e rfl
    · obtain ⟨e, rfl, rfl⟩ := holeCode_eq_some.1 hc
      exact .under (h.2.2.1 e rfl).steps fun hp =>
        ⟨⟨hp.part (by simp [Part.parts, Stmt.parts]), hp.fit.2.2 e rfl⟩, rfl, Int.le_refl _⟩
  | foreach loc left right body =>
    exact .ofLoop fun label => foreach_counts (.part 0 h.2.1.value rfl fun hf => hf.1)
      (fun hv => foreachLeft_counted hv h.1 (by simp [Part.parts, Stmt.parts]) fun hf => hf.2)
      (.part 2 h.2.2.run rfl fun _ => rfl)
  | whileLoop loc test body =>
    exact .ofLoop fun label => whileLoop_counts (.part 0 h.1.kept rfl fun hf => hf)
      (.part 1 h.2.run rfl fun _ => rfl)
  | doWhile loc body test =>
    exact .ofLoop fun label => doWhile_counts (.part 0 h.2.run rfl fun _ => rfl)
      (.part 1 h.1.kept rfl fun hf => hf)
  | declare loc ds =>
    have hdeclares : (Part.stmt (.declare loc ds)).IsCounted cx nested 0 0
        (Emit.declare cx.version (declaratorCodes cx ds) false) := by
      rw [Emit.declare, declaratorCodes_eq]
      refine .mono (.forM (n := 0) _ ?_ (Int.le_refl _)) (by simp) (Int.le_refl _)
      rw [forall_mem_map]
      intro d hd
      have hcounts : (Part.stmt (.declare loc ds)).IsCounted cx nested
          (if d.init.isNone && false then -1 else 0) (if d.init.isNone && false then 1 else 0)
          (declarator cx.version false (d.code cx)) :=
        declarators_counted h false (fun hf => hf) (fun _ hf => by cases hf) d hd
      rwa [Bool.and_false] at hcounts
    exact { StmtCounts.ofRun hdeclares with
      declares := fun _ hd => Option.some.inj hd ▸ hdeclares
      takes := fun _ hd hv => Option.some.inj hd ▸ takes_counted hv h }
  | returnValue loc argument =>
    refine .ofRun (returnValue_counts fun c hc => ?_)
    obtain ⟨e, rfl, rfl⟩ := holeCode_eq_some.1 hc
    refine .ofPart (h e rfl).returned ?_ fun hf => hf e rfl
    exact mem_flatMap.2 ⟨e, Option.mem_toList.2 rfl, e.mem_returnedParts⟩
  | importName loc specifiers target asName => exact .ofRun (importName_straight _ _ _ _).runs
  | ifElse loc test consequent alternate =>
    refine .ofRun (ifElse_counts (.part 0 h.1.kept rfl fun hf => hf)
      (.part 1 h.2.1.run rfl fun _ => rfl) fun c hc => ?_)
    obtain ⟨s, rfl, rfl⟩ := stmtHoleCode_eq_some.1 hc
    exact .part 2 (h.2.2 s rfl).run rfl fun _ => rfl
  | block loc stmts =>
    have hinside : (Part.stmt (.block loc stmts)).IsCounted cx nested 0 0
        (body cx.version cx.logsExceptions (stmtCodes cx stmts)) := by
      refine body_counts _ ?_
      rw [stmtCodes_eq, forall_mem_map]
      exact fun s hs => .ofPart (h s hs).run (mem_map_of_mem hs) fun _ => rfl
    exact { StmtCounts.ofRun (block_counts _ hinside) with
      block := fun _ hb => Option.some.inj hb ▸ hinside }
  | expression loc e =>
    refine .ofRun (expressionStatement_counts
      (.part 0 h.value rfl fun _ => rfl) fun hf => ?_)
    rw [h.expr]
    exact Expr.gain_of_fitStep hf.fit
  | switch loc discriminant cases =>
    refine .ofRun (switch_counts (.part 0 h.1.value rfl fun hf => hf.1) ?_ ?_)
    all_goals
      rw [caseCodes_eq, forall_mem_map]
      rintro ⟨cloc, test, stmts⟩ hc
    · intro c ht
      obtain ⟨e, rfl, rfl⟩ := holeCode_eq_some.1 ht
      refine .ofPart ((h.2 _ hc).1 e rfl).value ?_ fun hf => hf.2 _ hc e rfl
      refine mem_append_left _ (mem_cons_of_mem _ (mem_map_of_mem ?_))
      exact mem_filterMap.2 ⟨_, hc, rfl⟩
    · change ∀ s ∈ stmtCodes cx stmts, _
      rw [stmtCodes_eq, forall_mem_map]
      intro s hs
      refine .ofPart ((h.2 _ hc).2 s hs).run ?_ fun _ => rfl
      refine mem_append_right _ (mem_map_of_mem ?_)
      exact mem_flatMap.2 ⟨_, hc, hs⟩
  | continueLoop loc label => exact .ofRun continueLoop_counts
  | breakOut loc label => exact .ofRun breakOut_counts
  | labeled loc label body =>
    exact .ofRun (labeled_counts fun loop hl label =>
      .part 0 (h.loop loop hl label) rfl fun _ => rfl)
  | includeFile loc path =>
    exact .ofRun (includeFile_counts fun program hi => .under (hfollow program) fun hp =>
      ⟨fun s hs => hp.included hi hs, rfl, Int.le_refl _⟩)
  | require loc e | throw loc e =>
    exact .ofRun (.seq (.part 0 h.value rfl fun hf => hf)
      (fun _ => .emit _ rfl rfl ⟨rfl, Int.le_refl _⟩) (by decide))
  | finalizer loc e =>
    exact .ofRun (finalizer_counts (.part 0 h.value rfl fun hf => hf))
  | tryCatch loc tried handler last =>
    refine .ofRun (tryCatch_counts (.part 0 h.1.run rfl fun _ => rfl)
      (fun c hc => ?_) fun c hc => ?_)
    · cases handler with
      | none => cases hc
      | some clause =>
        obtain ⟨cloc, param, body⟩ := clause
        cases hc
        exact .part 1 (h.2.1 _ rfl).run rfl fun _ => rfl
    · obtain ⟨s, rfl, rfl⟩ := stmtHoleCode_eq_some.1 hc
      exact .ofPart (h.2.2.1 s rfl).run (by simp [Part.parts, Stmt.parts]) fun _ => rfl
  | undef loc name => exact .ofRun (undef_straight _ _).runs
  | sourceFile loc path => exact .ofRun (sourceFile_straight _).runs
  | moduleConstructor loc id body =>
    exact .ofRun (moduleConstructor_counts (.part 0 h.1.value rfl fun hf => hf)
      (.part 1 h.2.run rfl fun _ => rfl))
  | print loc arguments =>
    refine .ofRun (print_counts (fun hp => ?_) (values_counts h (fun e he => mem_map_of_mem he)
      fun hf e he => ?_))
    · have hf : arguments = [] := hp.fit
      rw [hf]
      rfl
    · have hf : arguments = [] := hf
      rw [hf] at he
      cases he
  | delegate loc id => exact .ofRun (delegate_straight _ _).runs
  | empty loc => exact .ofRun (.neutral (.pure _))

end

theorem Context.followCounts_atDepth (cx : Context) (nested : Prop) (depth : Nat) :
    (cx.atDepth depth).FollowCounts nested := by
  induction depth with
  | zero =>
    intro program s a t h
    cases h
  | succ depth ih =>
    intro program
    refine runAll_runs ?_
    rw [stmtCodes_eq, forall_mem_map]
    intro s hs
    have hrun := (Stmt.holds Expr.isCounted_of_parts (Stmt.isCounted_of_parts ih) s).run
    simp only [Part.IsProper, Context.version_atDepth, Context.library_atDepth] at hrun ⊢
    exact .under hrun fun hp => ⟨hp s hs, rfl, Int.le_refl _⟩

/-- Every expression keeps its account, also with the files that are included to the given depth. -/
theorem Expr.isCounted (cx : Context) (nested : Prop) (depth : Nat) (e : Expr) :
    e.IsCounted (cx.atDepth depth) nested :=
  Expr.holds Expr.isCounted_of_parts
    (Stmt.isCounted_of_parts (cx.followCounts_atDepth nested depth)) e

theorem Stmt.isCounted (cx : Context) (nested : Prop) (depth : Nat) (s : Stmt) :
    s.IsCounted (cx.atDepth depth) nested :=
  Stmt.holds Expr.isCounted_of_parts
    (Stmt.isCounted_of_parts (cx.followCounts_atDepth nested depth)) s

theorem Program.code_counts {o : Options} {sources : Sources} {p : Program} (nested : Prop)
    (depth : Nat) :
    Counts (∀ s ∈ p.body, (Part.stmt s).IsProper (o.context sources depth) nested) nested o.version
      0 0 (p.code (o.context sources depth)) := by
  have hbody : ∀ c ∈ stmtCodes (o.context sources depth) p.body,
      Counts (∀ s ∈ p.body, (Part.stmt s).IsProper (o.context sources depth) nested) nested o.version
        0 0 c.run := by
    rw [stmtCodes_eq, forall_mem_map]
    intro s hs
    have hcounted : s.IsCounted (o.context sources depth) nested := Stmt.isCounted _ nested depth s
    have hrun := hcounted.run
    simp only [Part.IsProper, Options.version_context] at hrun ⊢
    exact .under hrun fun hp => ⟨hp s hs, rfl, Int.le_refl _⟩
  rw [Program.code_context]
  refine .after (pushScope_counts _) fun _ => .after (body_counts _ hbody) fun _ => ?_
  exact .after (leaveScope_counts _) fun _ => setExit_straight.runs

end Adhoc
