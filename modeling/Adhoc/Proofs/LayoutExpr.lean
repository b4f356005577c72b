import Adhoc.Proofs.JudgedExpr
import Adhoc.Proofs.Subroutine
import Adhoc.Proofs.Tiling

namespace Adhoc

open Emit List

variable {ps : List Part} {lib : Library} {v : Version}

section

variable {α : Type} {x : Emit α} {name : String} {e : Expr}

theorem isPlain_of_isInline {u : Use} (hu : u.isInline = true) : u.part.isPlain = true := by
  rcases u with ⟨role, e⟩ | s
  · cases e <;> first | rfl | cases hu
  · cases s <;> first | rfl | cases hu

theorem Lays.named (he : e.ident? = some name) (hx : Lays lib v [] x) : Lays lib v [.expr e] x := by
  obtain ⟨loc, rfl⟩ := Expr.exists_of_ident? he
  exact .node rfl hx

theorem Lays.of_named (he : e.ident? = some name) (hx : Lays lib v [.expr e] x) :
    Lays lib v [] x := by
  obtain ⟨loc, rfl⟩ := Expr.exists_of_ident? he
  intro s a t hs h
  refine (hx hs h).mono (fun _ => ?_) (fun _ => .rfl) fun code targets hl => ?_
  · intro p hp hc
    obtain rfl := mem_singleton.1 hp
    cases hc with
    | part hq => cases hq
  · cases hl with
    | cons hi hlaid hrest =>
      cases hlaid with
      | plain _ hnone =>
        cases hnone with
        | nil hle => exact hrest.widen (Nat.le_trans hi hle) (le_rfl)
      | routine hbody => cases hbody

theorem Lays.before (he : e.ident? = some name) (hx : Lays lib v ps x) :
    Lays lib v (.expr e :: ps) x := by
  have hpure : Lays lib v [.expr e] (Pure.pure () : Emit Unit) := .named he (.pure ())
  simpa using hpure.first fun _ => hx

theorem Lays.after (he : e.ident? = some name) (hx : Lays lib v ps x) :
    Lays lib v (ps ++ [.expr e]) x := by
  have hpure (a : α) : Lays lib v [.expr e] (Pure.pure a : Emit α) := .named he (.pure a)
  simpa using hx.bind hpure

theorem Lays.inline {u : Use} (hu : u.isInline = true)
    (hx : Lays lib v ((u.uses v).map Use.part) x) : Lays lib v [u.part] x := by
  refine .node (isPlain_of_isInline hu) ?_
  rcases Use.parts_eq v hu with h | ⟨e, name, he, h | h⟩ <;> rw [h]
  · exact hx
  · exact hx.before he
  · exact hx.after he

end

/-- Where the parts stand in the code. -/
abbrev layout (lib : Library) (v : Version) : Judgment v where
  Index := List Part
  zero := []
  add ps qs := ps ++ qs
  zero_add := nil_append
  add_zero := append_nil
  add_assoc := append_assoc
  Holds ps x := Lays lib v ps x
  Readies ps f := ∀ child, Lays lib v ps (f child)
  all us := us.map Use.part
  all_nil := rfl
  all_append _ _ := map_append
  own _ := []
  own_mute _ _ := rfl
  own_comm _ ps := (append_nil ps).symm
  since _ := []
  since_none := rfl
  bound _ _ := []
  bound_false _ := rfl
  bound_nil _ := rfl
  bound_append _ _ _ := rfl
  bound_comm _ _ ps := (append_nil ps).symm
  all_referred _ := rfl
  all_behind _ _ := rfl
  all_refer _ _ := rfl
  pure a := .pure a
  bind hx hf := .bind hx hf
  reject hs h := Lays.reject hs h
  discard hx := .discard hx
  checked _ hx := require_bind .reject hx
  node hu hx := .inline hu hx
  named he hx := .of_named he hx
  emit {op line} hop _ := by cases op <;> first | exact .emit rfl rfl | cases hop
  lookedFor hx _ _ hy := .own (.neutral hx.neutral) fun _ => .own (.emit rfl rfl) fun _ => hy
  identifier loc name := .straight (identifier_straight loc name)
  member reach parts loc := .straight (member_straight reach parts loc)
  pushName name loc declares := .straight (pushName_straight name loc declares)
  declareName name := .neutral (declareName_neutral name)
  optionalElement _ hx := .own (.emit rfl rfl) fun _ => .last hx fun _ => .own (.emit rfl rfl) fun _ =>
    .straight (.warn _)
  optionalAttribute _ hx := .own (.emit rfl rfl) fun _ => .own (.straight (.warn _)) fun _ => hx
  attributeEval _ _ _ _ _ := .own (.neutral (attributeNames_neutral _)) fun _ => .emit rfl rfl
  attributePush _ _ _ _ _ := .own (.neutral (.symbol _)) fun _ => .emit rfl rfl
  call _ _ _ _ _ := .emit rfl rfl
  variadicCall _ _ _ _ _ := .own (.emit rfl rfl) fun _ => .straight (.warn _)
  instanceOf _ _ _ _ hx := .own (.neutral (.symbol _)) fun _ => .own (.emit rfl rfl) fun _ =>
    .last hx fun _ => .emit rfl rfl
  define _ _ _ _ hcheck := by
    refine .own (.neutral (.symbol _)) fun symbol => .own (.emit rfl rfl) fun _ => ?_
    exact .own (.neutral (.define _ _)) fun _ => .own (hcheck _ _) fun _ => .neutral (addMember_neutral _)
  arrayPattern {_ _ _ es} loc hx := by
    rw [Use.map_part_exprs] at hx
    exact .node rfl hx
  noParameter loc cause child := .reject
  declaredParameter name _ hx child := .own (.neutral (declareParameter_neutral name child)) fun _ =>
    .last hx fun _ => .pure _
  checkedParameter _ hf child := require_bind .reject fun _ => hf child
  parameterNode hu hf child := .inline hu (hf child)

section

variable (lib : Library) (v : Version)

/-- The code of an expression, in each of its uses, is laid out as the expression is. -/
abbrev ExprLaid := ExprJudged (layout lib v)

/-- The code of a statement, in each of its uses, is laid out as the statement is. -/
structure StmtLaid (s : Stmt) (c : StmtCode) : Prop where
  stmt : c.stmt = s
  run : Lays lib v [.stmt s] c.run
  block : ∀ body, c.block? = some body → Lays lib v [.stmt s] body
  loop : ∀ loop, c.loop? = some loop → ∀ label, LaysLoop lib v label s (loop label)
  declares : ∀ declares, c.declares? = some declares → ∀ fromStack,
    Lays lib v [.stmt s] (declares fromStack)

abbrev NodeLaid := NodeRel (ExprLaid lib v) (StmtLaid lib v)

end

section

variable {e left right : Expr} {c l r : ExprCode} {es : List Expr} {cs : List ExprCode}
  {ss : List Stmt} {n : Node} {p : Part}

theorem coalesce_lays (loc : Loc) (hl : ExprLaid lib v left l) (hr : ExprLaid lib v right r) :
    Lays lib v [.expr left, .expr right] (coalesce v loc l r) := by
  refine .own (.neutral .require) fun _ => .first hl.kept fun _ => ?_
  intro s _ t hs h
  simp only [bind_ok] at h
  obtain ⟨k, r1, h1, _, r2, h2, _, r3, h3, h4⟩ := h
  have hright := hr.value (Placed.ready_jump hs h1) h2
  have hacross := Tiles.across hs h1 hright h3
  exact hacross.trans (Lays.straight (.warn _) (hacross.ready hs) h4)

theorem logical_lays (loc : Loc) (op : LogicalOp) (hl : ExprLaid lib v left l)
    (hr : ExprLaid lib v right r) :
    Lays lib v [.expr left, .expr right] (logical v loc op l r) := by
  unfold logical
  split
  · exact coalesce_lays loc hl hr
  · refine .first hl.kept fun _ => ?_
    intro s _ t hs h
    simp only [bind_ok] at h
    obtain ⟨k, r1, h1, h⟩ := h
    have hready := Placed.ready_jump hs h1
    split at h <;> simp only [bind_ok] at h
    · obtain ⟨_, r2, h2, _, r3, h3, h4⟩ := h
      have hright := Lays.own (.straight pop_straight) (fun _ => hr.value) hready
        (bind_ok.2 ⟨_, _, h2, h3⟩)
      exact .across hs h1 hright h4
    · obtain ⟨_, r2, h2, h3⟩ := h
      exact .across hs h1 (hr.value hready h2) h3

theorem conditional_lays {test consequent alternate : Expr} {ct cc ca : ExprCode}
    (ht : ExprLaid lib v test ct) (hc : ExprLaid lib v consequent cc)
    (ha : ExprLaid lib v alternate ca) :
    Lays lib v [.expr test, .expr consequent, .expr alternate] (conditional v ct cc ca) := by
  refine .first ht.value fun _ => ?_
  intro s _ t hs h
  simp only [bind_ok] at h
  obtain ⟨k1, r1, h1, _, r2, h2, k2, r3, h3, h⟩ := h
  have hready := Placed.ready_jump hs h1
  have hcons := hc.referred hready h2
  have hend := hcons.trans (Tiles.jump (hcons.ready hready) h3)
  have hrest : ∀ {r4}, Tiles lib v [] [] r3 r4 → (do
      patchHere k1
      ca.value
      patchHere k2) r4 = .ok ((), t) → Tiles lib v [] [.expr consequent, .expr alternate] s t := by
    intro r4 h4 h
    simp only [bind_ok] at h
    obtain ⟨_, r5, h5, _, r6, h6, h7⟩ := h
    have hacross := Tiles.across hs h1 (hend.trans h4) h5
    have halt := hacross.trans (ha.value (hacross.ready hs) h6)
    exact (halt.patchHere (by simp) h7).settle (by simp)
  split at h
  all_goals
    obtain ⟨_, r4, h4, h⟩ := bind_ok.1 h
  · exact hrest (Lays.straight pop_straight (hend.ready hready) h4) h
  · exact hrest (Lays.dropDepth 1 (hend.ready hready) h4) h

theorem parameters_lays (child : Draft) (h : Forall₂ (ExprLaid lib v) es cs) :
    Lays lib v (es.map .expr) (parameters cs child) := by
  induction h generalizing child with
  | nil => exact .pure child
  | cons he _ ih => exact .first (he.param child) fun child => ih child

theorem within_laid {child d : Draft} {x : Emit Unit} {s t : Session} {n : Nat} {captures : Bool}
    (hs : Ready lib.includeFolder s) (hc : child.Begun n captures)
    (hx : ∀ ⦃s0 r a u⦄, Ready lib.includeFolder s0 → Opens .block s0 r → x r = .ok (a, u) →
      Tiles lib v [] ps s0 u) (h : within child x s = .ok (d, t)) :
    Still s t ∧ (∀ f ∈ d.finish.preorder, f.JumpsValid) ∧
      Tiled lib v d.finish.code [] ps 0 d.finish.code.length := by
  obtain ⟨u, hu, rfl, rfl⟩ := within_ok.1 h
  -- The frame before its outermost scope is opened.
  have hbase : Ready lib.includeFolder { s with frame := { child with scopes := [] } } :=
    ⟨.of_no_marks rfl, hs.folder⟩
  have hopens : Opens .block { s with frame := { child with scopes := [] } }
    { s with frame := child } := ⟨rfl, hc.marks, rfl, ⟨rfl, rfl, fun _ => rfl⟩, rfl⟩
  have hbody := hx hbase hopens hu
  exact ⟨⟨.refl _, hbody.folder⟩, hbody.frame hc.code rfl⟩

theorem NodeLaid.blockBody {c : NodeCode} {s t : Session} {body : Emit Unit}
    (h : NodeLaid lib v n c) (hr : NodeCode.blockBody c s = .ok (body, t)) :
    Lays lib v [n.part] body := by
  obtain ⟨-, s, c, rfl, h, hb⟩ := h.block_ok hr
  exact h.block _ hb

theorem subroutine_lays {r : RoutineCode} (loc : Loc) (isMethod : Bool) (hp : p.body? = some n)
    (hparts : p.parts v = es.map .expr) (hparams : Forall₂ (ExprLaid lib v) es r.params)
    (hnames : ∀ c ∈ r.params, c.Declares) (hbody : NodeLaid lib v n r.body) :
    Lays lib v [p] (subroutine v loc r isMethod) := by
  intro s _ t hs h
  obtain ⟨symbol, child, child', body, d, r0, r1, r2, r3, r4, r5, hnew, h2, h3, h4, ⟨r', hb⟩, h5, h6⟩ :=
    subroutine_ok h
  have hbefore : Tiles lib v [] [] s r2 := .still hs h2.still
  have hps := hbefore.trans (parameters_lays child hparams (hbefore.ready hs) h3)
  have hmember := hps.trans (.still (hps.ready hs) h4.still)
  have hinside : ∀ ⦃s0 r a u⦄, Ready lib.includeFolder s0 → Opens .block s0 r → (do
      body
      leaveScope v false
      frameExit v) r = .ok (a, u) → Tiles lib v [] [n.part] s0 u := by
    intro s0 r a u hs0 ho hr
    simp only [bind_ok] at hr
    obtain ⟨_, r1', hr1, _, r2', hr2, hr3⟩ := hr
    have hscope := Tiles.scope hs0 rfl ho (hbody.blockBody hb (ho.ready hs0) hr1) hr2
    exact hscope.trans (Lays.straight frameExit_straight (hscope.ready hs0) hr3)
  have hbegun := (Draft.Begun.afterParameters hnames (.newChild hnew) h3).reserveSlot (v := v) isMethod
  obtain ⟨hstill, hvalid, hframe⟩ := within_laid (hmember.ready hs) hbegun hinside h5
  have hall := hmember.trans (.still (hmember.ready hs) hstill)
  exact .routine hs hp (by simpa [hparts] using hall) hvalid hframe h6

theorem closureBody_tiles {c : NodeCode} (hbody : NodeLaid lib v n c) :
    Lays lib v [n.part] (closureBody v c) := by
  cases hbody with
  | stmt h => exact .last h.run fun _ => .straight frameExit_straight
  | expr h => exact .last h.value fun _ => .straight (handOff_straight _)

theorem closure_lays {c : NodeCode} (loc : Loc) (isMethod : Bool) (hp : p.body? = some n)
    (hparts : p.parts v = es.map .expr) (hparams : Forall₂ (ExprLaid lib v) es cs)
    (hnames : ∀ c ∈ cs, c.Declares) (hbody : NodeLaid lib v n c) :
    Lays lib v [p] (closure v loc cs c isMethod) := by
  intro s _ t hs h
  simp only [Emit.closure, bind_ok] at h
  obtain ⟨child, r1, h1, child', r2, h2, d, r3, h3, _, r4, h4, h5⟩ := h
  have hnew : Tiles lib v [] [] s r1 := .still hs (newChild_neutral _ h1).still
  have hps := hnew.trans (parameters_lays child hparams (hnew.ready hs) h2)
  have hinside : ∀ ⦃s0 r a u⦄, Ready lib.includeFolder s0 → Opens .block s0 r → (do
      closureBody v c
      leaveScope v false) r = .ok (a, u) → Tiles lib v [] [n.part] s0 u := by
    intro s0 r a u hs0 ho hr
    obtain ⟨_, r', hr1, hr2⟩ := bind_ok.1 hr
    exact .scope hs0 rfl ho (closureBody_tiles hbody (ho.ready hs0) hr1) hr2
  obtain ⟨hstill, hvalid, hframe⟩ :=
    within_laid (hps.ready hs) (.afterParameters hnames (.newChild h1) h2) hinside h3
  have hwithin := hps.trans (.still (hps.ready hs) hstill)
  have hcaptured : Lays lib v [] (d.captured.forM fun symbol => readName v symbol.name loc) :=
    .straight (.forM _ (fun _ _ => readName_straight _ _) (by decide))
  have hall := hwithin.trans (hcaptured (hwithin.ready hs) h4)
  exact .routine hs hp (by simpa [hparts] using hall) hvalid hframe h5

theorem awaitedTask_lays (loc : Loc) (h : ExprLaid lib v e c) :
    Lays lib v [.expr (.await loc e)] (awaitedTask v c) := by
  unfold awaitedTask
  rw [h.expr]
  split
  · exact closure_lays _ _ rfl rfl .nil (fun _ hc => nomatch hc) (.expr h)
  · rename_i hcall
    have hparts : Part.parts v (.expr (.await loc e)) = [.expr e] := by
      cases e <;> first | rfl | exact absurd rfl (hcall _ _ _)
    refine .node ?_ (hparts ▸ h.value)
    cases e <;> first | rfl | exact absurd rfl (hcall _ _ _)

theorem await_lays (loc : Loc) (h : ExprLaid lib v e c) :
    Lays lib v [.expr (.await loc e)] (await v loc c) := by
  refine .own (.straight (member_straight _ _ _)) fun _ => .first (awaitedTask_lays loc h) fun _ => ?_
  refine .own (.emit rfl rfl) fun _ => .own (.neutral (.temporary _)) fun task => ?_
  refine .own (.straight (pushName_straight _ _ _)) fun _ => .own (.emit rfl rfl) fun _ => ?_
  refine .own (.straight (member_straight _ _ _)) fun _ => ?_
  refine .own (.straight (readTemporary_straight _ _)) fun _ => .own (.emit rfl rfl) fun _ => ?_
  exact .straight (.warn _)

theorem runAll_lays {cs : List StmtCode} (h : Forall₂ (StmtLaid lib v) ss cs) :
    Lays lib v (ss.map .stmt) (runAll cs) := by
  induction h with
  | nil => exact .pure ()
  | cons hs _ ih => exact .first hs.run fun _ => ih

theorem leaveModuleScope_lays (c : Scope) : Lays lib v [] (do
    if v.has .freesOnLeave then freeAll Slots.freeStatic c.statics
    markModuleLeave v) := by
  have hlast : Lays lib v [] (markModuleLeave v) :=
    .ite (.own (.neutral .get) fun s => .emit rfl rfl) (.pure ())
  exact .ite (.own (.neutral (freeAll_neutral _ _)) fun _ => hlast) hlast

theorem classDef_lays {c : ClassCode} (loc : Loc) (isStatic : Bool)
    (h : Forall₂ (StmtLaid lib v) ss c.body) :
    Lays lib v (ss.map .stmt) (classDef v loc c isStatic) := by
  unfold classDef
  cases c.id.pathName? with
  | none => exact .reject
  | some name =>
    refine .own (.neutral .require) fun _ => ?_
    intro s _ t hs hr
    simp only [bind_ok] at hr
    obtain ⟨_, r1, h1, _, r2, h2, _, r3, h3, _, r4, h4, _, r5, h5, _, r6, h6, h7⟩ := hr
    have ho := pushScope_opens h1
    have hr1 := ho.ready hs
    have henter : Tiles lib v [] [] r1 r2 := Lays.straight (enterModule_straight _) hr1 h2
    have hopen := henter.trans
      (Lays.straight (openClass_straight _ _ _ _) (henter.ready hr1) h3)
    have hbody := hopen.trans (runAll_lays h (hopen.ready hr1) h4)
    obtain ⟨scope, r5', h5, h5'⟩ := bind_ok.1 h5
    have hpop := Tiles.pop rfl ho hbody h5
    have hleave := hpop.trans (leaveModuleScope_lays scope (hpop.ready hs) h5')
    have hmodule := hleave.trans (Lays.straight leaveModule_straight (hleave.ready hs) h6)
    have hexit := hmodule.trans (Lays.straight setExit_straight (hmodule.ready hs) h7)
    simpa using hexit

theorem staticClass_lays {c : ClassCode} (loc : Loc) (h : Forall₂ (StmtLaid lib v) ss c.body) :
    Lays lib v (ss.map .stmt) (staticClass v loc c) :=
  .ite (classDef_lays loc true h) .reject

end
end Adhoc
