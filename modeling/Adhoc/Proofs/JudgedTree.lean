import Adhoc.Proofs.JudgedExpr

namespace Adhoc

open Emit List

variable {cx : Context} {v : Version} {S : Stmt → Prop} {e : Expr}

section

variable {J : Judgment v} {value : Emit Unit}

theorem stepOf_lowers (h : J.Lowers [.expr .value e] value) :
    J.Lowers [.expr .value e] (ExprCode.stepOf v e value) := by
  unfold ExprCode.stepOf
  split
  · exact .last h fun _ => J.pop
  · exact .last h fun _ => J.pop
  · exact h
  · exact J.reject

theorem ExprJudged.ofValue (he : e.returnedUses = [.expr .value e])
    (h : ∀ role, role.isValue = true → J.Lowers [.expr role e] value) :
    ExprJudged J e (.ofValue v e value) where
  expr := rfl
  value := h _ rfl
  kept := h _ rfl
  referred := h _ rfl
  operand := h _ rfl
  place := J.reject
  stored := J.reject
  returned := he ▸ h _ rfl
  steps := stepOf_lowers (h _ rfl)
  asStatic _ _ := J.reject
  asAttribute _ _ := J.reject
  element _ _ := J.reject
  pattern _ hp := nomatch hp
  param := J.noParameter _ _
  part := J.reject

theorem ExprJudged.ofPlace (he : e.returnedUses = [.expr .value e])
    (h : ∀ role, J.Lowers [.expr role e] value) :
    ExprJudged J e { ExprCode.ofValue v e value with place := value } :=
  { ExprJudged.ofValue he fun role _ => h role with place := h _ }

theorem ExprJudged.ofNothing (he : e.returnedUses = [.expr .value e]) :
    ExprJudged J e (.ofNothing v e) := .ofValue he fun _ _ => J.reject

end

/-- The code of the expression has the judgment in each role. -/
abbrev Expr.Judged {cx : Context} (J : Judgment cx.version) (e : Expr) : Prop :=
  ExprJudged J e (e.code cx)

namespace Expr.Judged

variable {J : Judgment cx.version} {loc : Loc} {left right : Expr} {es : List Expr}

theorem ident (name : String) : (Expr.ident loc name).Judged J :=
  have hnode (role : Role) {α : Type} {x : Emit α} (h : J.Holds J.zero x) :
      J.Lowers [.expr role (.ident loc name)] x := .node rfl rfl rfl (.leaf h)
  have hpush : J.Holds J.zero (pushName cx.version name loc false) := by
    have hname := J.pushName name loc false
    rwa [J.bound_false] at hname
  { ExprJudged.ofValue (e := .ident loc name) rfl fun role _ => hnode role (J.identifier loc name) with
    place := hnode _ hpush
    stored := hnode _ hpush
    asStatic := fun role outer => staticName_lowers role outer loc name
    asAttribute := fun role outer => attributeName_lowers role outer loc name
    element := fun declares _ => J.bind (J.pushName name loc declares) fun _ => hnode _ (J.pure false)
    param := nameParameter_readies name }

theorem call (h : e.Judged J) (hs : ∀ e ∈ es, e.Judged J) : (Expr.call loc e es).Judged J :=
  .ofPlace rfl fun _ => call_lowers h (exprCodes_forall₂ hs)

theorem unary (op : UnaryOp) (h : e.Judged J) : (Expr.unary loc op e).Judged J := by
  have hvalue (role : Role) (hrole : op = .refer → role ≠ .referred) :
      J.Lowers [.expr role (.unary loc op e)] (Emit.unary cx.version loc op (e.code cx)) :=
    unary_lowers op hrole h
  cases op
  case refer =>
    -- Where a reference is asked for, the operand is the place that it refers to.
    exact { ExprJudged.ofNothing (e := .unary loc .refer e) rfl with
      expr := rfl
      value := hvalue _ (by simp)
      kept := hvalue _ (by simp)
      referred := .node rfl rfl rfl h.place
      operand := hvalue _ (by simp)
      stored := .node rfl rfl rfl (storedThrough_lowers rfl h)
      returned := hvalue _ (by simp) }
  case follow =>
    exact { ExprJudged.ofValue (e := .unary loc .follow e) rfl fun role _ => hvalue role (by simp) with
      stored := .node rfl rfl rfl (storedThrough_lowers rfl h) }
  all_goals exact .ofValue rfl fun role _ => hvalue role (by simp)

theorem update (op : UpdateOp) (before : Bool) (h : e.Judged J) :
    (Expr.update loc op before e).Judged J :=
  have hplace : J.Lowers [.expr .place e] (do
      (e.code cx).place
      updateOperator cx.version loc op before) := .last h.place fun _ => updateOperator_lowers _ _
  have hvalue : J.Lowers [.expr .value (.update loc op before e)] _ := .node rfl rfl rfl hplace
  { ExprJudged.ofNothing (e := .update loc op before e) rfl with
    expr := rfl
    value := hvalue
    kept := hvalue
    referred := .node rfl rfl rfl hplace
    operand := .node rfl rfl rfl (.last h.value fun _ => updateOperator_lowers _ _)
    returned := hvalue
    steps := stepOf_lowers hvalue }

theorem binary (op : BinaryOp) (hl : left.Judged J) (hr : right.Judged J) :
    (Expr.binary loc op left right).Judged J := .ofPlace rfl fun _ => binary_lowers hl hr op

theorem literal (value : Literal) : (Expr.literal loc value).Judged J :=
  .ofPlace rfl fun _ => literal_lowers value

theorem array {es : List (Option Expr)} (h : ∀ e, some e ∈ es → e.Judged J) :
    (Expr.array loc es).Judged J := .ofValue rfl fun _ _ => array_lowers (holeCodes_forall₂ h)

theorem map {es : List (Expr × Expr)} (h : ∀ p ∈ es, p.1.Judged J ∧ p.2.Judged J) :
    (Expr.map loc es).Judged J := .ofValue rfl fun _ _ => map_lowers (pairCodes_forall₂ h)

theorem element (optional : Bool) (hl : left.Judged J) (hr : right.Judged J) :
    (Expr.element loc left right optional).Judged J :=
  { ExprJudged.ofValue (e := .element loc left right optional) rfl
      fun _ hrole => element_lowers hl hr optional hrole with
    place := pushElement_lowers hl hr optional
    stored := pushElement_lowers hl hr optional }

theorem path : (Expr.path loc left right).Judged J :=
  have hplace : J.Lowers [.expr .place (.path loc left right)] _ :=
    .node rfl rfl rfl (.leaf (J.member .push _ loc))
  { ExprJudged.ofValue (e := .path loc left right) rfl
      fun _ _ => .node rfl rfl rfl (.leaf (J.member .eval _ loc)) with
    place := hplace
    stored := hplace }

theorem «attribute» (optional : Bool) (hl : left.Judged J) :
    (Expr.attribute loc left right optional).Judged J :=
  have hplace := pushAttribute_lowers optional hl
  { ExprJudged.ofValue (e := .attribute loc left right optional) rfl
      fun _ hrole => attribute_lowers optional hrole hl with
    place := hplace
    stored := hplace
    element := fun declares _ => by
      rw [show elementName? _ = none from rfl, Option.toList_none, J.bound_nil, J.zero_add]
      exact .last hplace fun _ => J.pure _ }

theorem selector (hl : left.Judged J) (hr : right.Judged J) :
    (Expr.selector loc left right).Judged J :=
  { ExprJudged.ofValue (e := .selector loc left right) rfl fun _ _ => selector_lowers hl hr with
    place := J.reject
    stored := selector_lowers hl hr }

theorem assign (op : AssignOp) (hl : left.Judged J) (hr : right.Judged J) :
    (Expr.assign loc op left right).Judged J :=
  have hvalue (role : Role) (hrole : role.isValue = true) (drops : Bool) :
      J.Lowers [.expr role (.assign loc op left right)]
        (assignment cx.version loc op (left.code cx) (right.code cx) drops) :=
    assignment_lowers op drops (by cases role <;> first | rfl | cases hrole)
      (by cases role <;> first | rfl | cases hrole) hl hr
  { expr := rfl
    value := hvalue _ rfl true
    kept := hvalue _ rfl false
    referred := hvalue _ rfl true
    operand := hvalue _ rfl true
    place := J.reject
    stored := J.reject
    returned := .first (hvalue _ rfl true) fun _ => hl.value
    steps := stepOf_lowers (hvalue _ rfl true)
    asStatic := fun role outer => staticAssignment_lowers role outer loc op hl hr
    asAttribute := fun role outer => attributeAssignment_lowers role outer loc op hl hr
    element := fun _ _ => J.reject
    pattern := fun _ hp => nomatch hp
    param := assignedParameter_readies hl.name hr.value op
    part := J.reject }

theorem assignPattern (hr : right.Judged J) : (Expr.assignPattern loc left right).Judged J :=
  { ExprJudged.ofNothing (e := .assignPattern loc left right) rfl with
    param := patternParameter_readies (congrArg Expr.ident? (left.expr_code cx)) hr.value }

theorem arrayPattern (h : ∀ e ∈ es, e.Judged J) : (Expr.arrayPattern loc es).Judged J :=
  { ExprJudged.ofNothing (e := .arrayPattern loc es) rfl with
    pattern := fun _ hp declares =>
      Option.some.inj hp ▸ arrayPattern_holds declares (exprCodes_forall₂ h) }

theorem rest : (Expr.rest loc e).Judged J :=
  { ExprJudged.ofNothing (e := .rest loc e) rfl with
    element := restElement_holds
    param := restParameter_readies }

theorem steps {J : Judgment v} {cs : List ExprCode} (h : Forall₂ (ExprJudged J) es cs) :
    J.Lowers (es.map (.expr .value)) (cs.forM fun c => c.step v) := by
  induction h with
  | nil => exact .leaf (J.pure ())
  | cons he _ ih =>
    refine .first ?_ fun _ => ih
    simp only [ExprCode.step, he.expr]
    exact stepOf_lowers he.value

theorem sequence (h : ∀ e ∈ es, e.Judged J) : (Expr.sequence loc es).Judged J :=
  { ExprJudged.ofNothing (e := .sequence loc es) rfl with
    steps := .node rfl rfl rfl (steps (exprCodes_forall₂ h)) }

theorem template (quasis : List Quasi) (h : ∀ e ∈ es.take quasis.length, e.Judged J) :
    (Expr.template loc quasis es).Judged J := by
  have hcodes : Forall₂ (ExprJudged J) (es.take quasis.length)
      ((exprCodes cx es).take quasis.length) := by
    rw [take_exprCodes]
    exact exprCodes_forall₂ h
  exact { ExprJudged.ofValue (e := .template loc quasis es) rfl
      fun _ _ => .node rfl rfl rfl (template_lowers loc quasis hcodes) with
    part := .node rfl rfl rfl (templateParts_lowers quasis hcodes) }

theorem tagged (h : ∀ e ∈ es, e.Judged J) : (Expr.tagged loc es).Judged J :=
  have hparts := taggedParts_lowers (exprCodes_forall₂ h)
  { ExprJudged.ofValue (e := .tagged loc es) rfl
      fun _ _ => .node rfl rfl rfl (.last hparts fun _ => .plain rfl rfl) with
    part := .node rfl rfl rfl hparts }

theorem staticDecl (h : e.Judged J) : (Expr.staticDecl loc e).Judged J :=
  .ofValue rfl fun role _ => h.asStatic role loc

theorem attributeDecl (h : e.Judged J) : (Expr.attributeDecl loc e).Judged J :=
  .ofValue rfl fun role _ => h.asAttribute role loc

theorem spread (h : e.Judged J) : (Expr.spread loc e).Judged J :=
  .ofValue rfl fun _ _ => .node rfl rfl rfl h.value

end Expr.Judged

def Part.Holds (E : Expr → Prop) (S : Stmt → Prop) : Part → Prop
  | .expr e => E e
  | .stmt s => S s

/-- What holds of the direct parts of an expression holds of those that are lowered. -/
theorem Expr.parts_hold {E : Expr → Prop} (e : Expr) (h : e.Parts E S) :
    ∀ q ∈ e.parts v, q.Holds E S := by
  intro q hq
  cases e with
  | map loc entries =>
    simp only [Expr.parts, mem_flatMap, Prod.exists, mem_cons, not_mem_nil, or_false] at hq
    obtain ⟨key, value, hmem, rfl | rfl⟩ := hq
    · exact (h _ hmem).1
    · exact (h _ hmem).2
  | assign loc op left right =>
    simp only [Expr.parts] at hq
    split at hq <;> simp only [mem_cons, not_mem_nil, or_false] at hq <;>
      rcases hq with rfl | rfl
    exacts [h.2, h.1, h.1, h.2]
  | template loc quasis es =>
    simp only [Expr.parts, mem_map] at hq
    obtain ⟨e, he, rfl⟩ := hq
    exact h e (mem_of_mem_take he)
  | await loc e =>
    cases e
    case call => cases hq
    all_goals
      obtain rfl := mem_singleton.1 hq
      exact h
  | _ =>
    simp only [Expr.Parts, Expr.parts] at h hq
    grind [Part.Holds]

/-- Whether each judgment has its own way to deal with the expression, for its jumps, its frame or
its effects. -/
def Expr.isSpecial : Expr → Bool
  | .function .. | .method .. | .arrow .. | .logical .. | .conditional .. | .classDef ..
  | .importName .. | .yield .. | .await .. | .selfRef .. => true
  | _ => false

/-- The code of an expression has the judgment if the codes of its parts do. -/
theorem Expr.judged {J : Judgment cx.version} (e : Expr)
    (h : ∀ q ∈ e.parts cx.version, q.Holds (Expr.Judged J) fun _ => True)
    (hspecial : e.isSpecial = true → e.Judged J) : e.Judged J := by
  have hsecond {a b : Expr} {ps : List Part} (h : ∀ q ∈ Part.expr a :: .expr b :: ps,
      q.Holds (Expr.Judged J) fun _ => True) : b.Judged J :=
    h _ (mem_cons_of_mem _ mem_cons_self)
  have hmap {es : List Expr} (h : ∀ q ∈ es.map Part.expr, q.Holds (Expr.Judged J) fun _ => True) :
      ∀ e ∈ es, e.Judged J := fun e he => h _ (mem_map_of_mem he)
  cases e with
  | ident loc name => exact .ident name
  | call loc callee arguments =>
    exact .call (h _ mem_cons_self) (hmap fun q hq => h q (mem_cons_of_mem _ hq))
  | unary loc op e => exact .unary op (h _ mem_cons_self)
  | update loc op before e => exact .update op before (h _ mem_cons_self)
  | binary loc op left right => exact .binary op (h _ mem_cons_self) (hsecond h)
  | literal loc value => exact .literal value
  | array loc elements =>
    exact .array fun e he => h (.expr e) (mem_map_of_mem (mem_filterMap.2 ⟨_, he, rfl⟩))
  | map loc entries =>
    exact .map fun p hp => ⟨h (.expr p.1) (mem_flatMap.2 ⟨p, hp, by simp⟩),
      h (.expr p.2) (mem_flatMap.2 ⟨p, hp, by simp⟩)⟩
  | element loc left right optional =>
    exact .element optional (h _ mem_cons_self) (hsecond h)
  | path loc left right => exact .path
  | «attribute» loc left right optional => exact .attribute optional (h _ mem_cons_self)
  | selector loc left right => exact .selector (h _ mem_cons_self) (hsecond h)
  | assign loc op left right =>
    simp only [Expr.parts] at h
    split at h
    · exact .assign op (hsecond h) (h _ mem_cons_self)
    · exact .assign op (h _ mem_cons_self) (hsecond h)
  | assignPattern loc left right => exact .assignPattern (h _ mem_cons_self)
  | arrayPattern loc es => exact .arrayPattern (hmap h)
  | rest loc e => exact .rest
  | template loc quasis es => exact .template quasis (hmap h)
  | tagged loc es => exact .tagged (hmap h)
  | sequence loc es => exact .sequence (hmap h)
  | staticDecl loc e => exact .staticDecl (h _ mem_cons_self)
  | attributeDecl loc e => exact .attributeDecl (h _ mem_cons_self)
  | spread loc e => exact .spread (h _ mem_cons_self)
  | _ => exact hspecial rfl

theorem Expr.judged_of_parts {J : Judgment cx.version} (h : e.Parts (Expr.Judged J) S)
    (hspecial : e.isSpecial = true → e.Judged J) : e.Judged J := by
  refine Expr.judged e (fun q hq => ?_) hspecial
  have hpart := e.parts_hold h q hq
  cases q with
  | expr e => exact hpart
  | stmt s => trivial

end Adhoc
