import Adhoc.Proofs.Judging

namespace Adhoc

open Emit List Operation

variable {v : Version} {loc : Loc}

namespace Judgment

variable {α β : Type} {J : Judgment v} {a b : J.Index} {u : Use} {us ws : List Use} {x : Emit α}
  {f : α → Emit β} {cause : Cause} {line : UInt32}

theorem bound_exchange (J : Judgment v) (declares : Bool) (names others : List String)
    (a b : J.Index) : J.add (J.bound declares (names ++ others)) (J.add a b) =
      J.add (J.add (J.bound declares names) a) (J.add (J.bound declares others) b) := by
  rw [J.bound_append, J.add_assoc, ← J.add_assoc (J.bound declares others) a,
    J.bound_comm declares others a, J.add_assoc, J.add_assoc]

theorem looked (J : Judgment v) {a : J.Index} {s : Emit Symbol} {op : Named} (hs : Lookup s)
    (hop : op.opcode.span = (1, 13)) (hx : J.Holds a x) :
    J.Holds a (s >>= fun s => Emit.emit v (.named op s) line >>= fun _ => x) :=
  J.lookedFor hs (by rintro rfl; cases hop) (fun _ => isAdmitted_of_always hop) hx

/-- The action lowers the uses. -/
def Lowers (J : Judgment v) {α : Type} (us : List Use) (x : Emit α) : Prop := J.Holds (J.all us) x

namespace Holds

theorem own (hx : J.Holds J.zero x) (hf : ∀ r, J.Holds a (f r)) : J.Holds a (x >>= f) := by
  rw [← J.zero_add a]
  exact J.bind hx hf

theorem last (hx : J.Holds a x) (hf : ∀ r, J.Holds J.zero (f r)) : J.Holds a (x >>= f) := by
  rw [← J.add_zero a]
  exact J.bind hx hf

theorem leaf (hx : J.Holds J.zero x) : J.Lowers [] x := by
  rwa [Lowers, J.all_nil]

theorem append (hx : J.Lowers us x) (hf : ∀ r, J.Lowers ws (f r)) :
    J.Lowers (us ++ ws) (x >>= f) := by
  rw [Lowers, J.all_append]
  exact J.bind hx hf

theorem first (hx : J.Lowers [u] x) (hf : ∀ r, J.Lowers us (f r)) :
    J.Lowers (u :: us) (x >>= f) := append hx hf

theorem ite {c : Prop} [Decidable c] {y : Emit α} (hx : c → J.Holds a x) (hy : ¬ c → J.Holds a y) :
    J.Holds a (if c then x else y) := by
  split
  · exact hx ‹_›
  · exact hy ‹_›

theorem required {c : Bool} (hx : J.Holds a x) : J.Holds a (require c loc cause >>= fun _ => x) :=
  require_bind J.reject fun _ => hx

theorem check {c : Bool} : J.Holds J.zero (require c loc cause) :=
  ite (fun _ => J.pure ()) fun _ => J.reject

theorem plain {op : Operation} (hop : op.isBare = true) (h : op.span = (1, 13)) :
    J.Holds J.zero (Emit.emit v op line) := J.emit hop (isAdmitted_of_always h)

theorem lookedFor {x : Emit Symbol} {op : Named} (hx : Lookup x) (hne : op ≠ .delegateDefine)
    (hop : ∀ s, isAdmitted v (.named op s) = true) :
    J.Holds J.zero (x >>= fun s => Emit.emit v (.named op s) line) := by
  have h : J.Holds J.zero (x >>= fun s => Emit.emit v (.named op s) line >>= fun _ => Pure.pure ()) :=
    J.lookedFor hx hne hop (J.pure ())
  simpa using h

theorem looked {x : Emit Symbol} {op : Named} (hx : Lookup x) (hop : op.opcode.span = (1, 13)) :
    J.Holds J.zero (x >>= fun s => Emit.emit v (.named op s) line) :=
  lookedFor hx (by rintro rfl; cases hop) fun _ => isAdmitted_of_always hop

theorem node (hu : u.isInline = true) (hc : u.checked? = none) (hm : u.part.isMute = true)
    (hx : J.Lowers (u.uses v) x) : J.Lowers [u] x := by
  refine J.node hu ?_
  rwa [hc, J.since_none, J.own_mute hu hm, J.zero_add, J.zero_add]

theorem acting (hu : u.isInline = true) (hc : u.checked? = none)
    (hx : J.Holds (J.add (J.own u.part) (J.all (u.uses v))) x) : J.Lowers [u] x := by
  refine J.node hu ?_
  rwa [hc, J.since_none, J.zero_add]

theorem gated {c : Capability} {n : Nat} (hu : u.isInline = true) (hn : u.checked? = some n)
    (hm : u.part.isMute = true) (hc : c.span = (n, 13))
    (hx : v.has c = true → J.Lowers (u.uses v) x) :
    J.Lowers [u] (require (v.has c) loc cause >>= fun _ => x) := by
  refine J.node hu ?_
  rw [hn, J.own_mute hu hm, J.zero_add]
  exact J.checked hc hx

theorem name {role : Role} {name : String} (hx : J.Holds a x) :
    J.Holds (J.add a (J.all [.expr role (.ident loc name)])) x := by
  have hname (r : α) : J.Lowers [.expr role (.ident loc name)] (Pure.pure r : Emit α) :=
    node rfl rfl rfl (leaf (J.pure r))
  simpa using J.bind hx hname

end Holds

section

variable (J : Judgment v)

theorem pop : J.Holds J.zero (Emit.pop v) := by
  unfold Emit.pop
  split
  · exact J.emit rfl (isAdmitted_of_has ‹_› rfl)
  · exact J.emit rfl (isAdmitted_of_lacks ‹_› rfl rfl)

theorem assign : J.Holds J.zero (Emit.assign v) := by
  unfold Emit.assign
  split
  · exact J.emit rfl (isAdmitted_of_has ‹_› rfl)
  · exact J.emit rfl (isAdmitted_of_lacks ‹_› rfl rfl)

theorem assignPop : J.Holds J.zero (Emit.assignPop v) :=
  .ite (fun hv => J.emit rfl (isAdmitted_of_has hv rfl)) fun _ => .own J.assign fun _ => J.pop

theorem assignAnd (drops : Bool) : J.Holds J.zero (Emit.assignAnd v drops) :=
  .ite (fun _ => J.assignPop) fun _ => J.assign

theorem binaryAssign (op : AssignOp) (loc : Loc) : J.Holds J.zero (Emit.binaryAssign v op loc) := by
  unfold Emit.binaryAssign
  split
  · exact J.reject
  · by_cases hv : v.has .binaryAssign = true
    · simp only [hv, if_true]
      exact .lookedFor (.operator _ _) (by simp) fun _ => isAdmitted_of_has hv rfl
    · simp only [hv]
      exact J.looked (.operator _ _) rfl J.assign

theorem text (loc : Loc) (content : String) (hexEscaped : Bool) :
    J.Holds J.zero (Emit.text v loc content hexEscaped) :=
  .ite (fun _ => .plain rfl rfl) fun _ => .looked (.string _ _) rfl

end

end Judgment

/-- The code of an expression has the judgment in each role. -/
structure ExprJudged {v : Version} (J : Judgment v) (e : Expr) (c : ExprCode) : Prop where
  expr : c.expr = e
  value : J.Lowers [.expr .value e] c.value
  kept : J.Lowers [.expr .value e] c.kept
  referred : J.Lowers [.expr .referred e] c.referred
  operand : J.Lowers [.expr .operand e] c.underRefer
  place : J.Lowers [.expr .place e] c.place
  stored : J.Lowers [.expr .place e] c.stored
  returned : J.Lowers e.returnedUses c.returned
  steps : J.Lowers [.expr .value e] c.steps
  asStatic : ∀ role loc, J.Lowers [.expr role (.staticDecl loc e)] (c.asStatic loc)
  asAttribute : ∀ role loc, J.Lowers [.expr role (.attributeDecl loc e)] (c.asAttribute loc)
  element : ∀ declares isLast, J.Holds
    (J.add (J.bound declares e.elementName?.toList) (J.all [.expr .place e])) (c.element declares isLast)
  pattern : ∀ pattern, c.pattern? = some pattern → ∀ declares,
    J.Holds (J.add (J.bound declares e.bound) (J.all [.expr .place e])) (pattern declares)
  param : J.Readies (J.all [.expr .param e]) c.param
  part : J.Lowers [.expr .value e] c.part

theorem ExprJudged.name {J : Judgment v} {e : Expr} {c : ExprCode} (h : ExprJudged J e c) :
    c.name? = e.ident? := by
  rw [ExprCode.name?, h.expr]

variable {J : Judgment v} {e left right property : Expr} {c l r : ExprCode} {es : List Expr}
  {cs : List ExprCode} {role : Role} {after : Emit Unit}

theorem literal_lowers (value : Literal) :
    J.Lowers [.expr role (.literal loc value)] (literal v loc value) := by
  cases value
  case uint | ulong | double | byte | ubyte | short | ushort =>
    exact .gated rfl rfl rfl rfl fun hv => .leaf (J.emit rfl (isAdmitted_of_has hv rfl))
  case bool b =>
    refine .node rfl rfl rfl (.leaf ?_)
    simp only [literal]
    split
    · exact J.emit rfl (isAdmitted_of_has ‹_› rfl)
    · exact .plain rfl rfl
  case symbol name => exact .node rfl rfl rfl (.leaf (.looked (.symbol _) rfl))
  case string content => exact .node rfl rfl rfl (.leaf (J.text _ _ _))
  all_goals exact .node rfl rfl rfl (.leaf (.plain rfl rfl))

theorem templateParts_lowers (quasis : List Quasi)
    (h : Forall₂ (ExprJudged J) (es.take quasis.length) (cs.take quasis.length)) :
    J.Lowers ((es.take quasis.length).map (.expr .value)) (templateParts v quasis cs) := by
  induction quasis generalizing es cs with
  | nil => exact .leaf (J.pure 0)
  | cons q quasis ih =>
    refine J.looked (.string _ _) rfl ?_
    rcases es with _ | ⟨e, es⟩ <;> rcases cs with _ | ⟨c, cs⟩ <;>
      simp only [length_cons, take_succ_cons, take_nil, forall₂_nil_left_iff,
        forall₂_nil_right_iff, forall₂_cons, reduceCtorEq] at h ⊢
    · have hrest : J.Lowers ((take quasis.length []).map (.expr .value))
          (templateParts v quasis []) := ih (by simp)
      rw [take_nil] at hrest
      exact .last hrest fun n => J.pure _
    · exact .first h.1.value fun _ => .last (ih h.2) fun n => J.pure _

theorem template_lowers (loc : Loc) (quasis : List Quasi)
    (h : Forall₂ (ExprJudged J) (es.take quasis.length) (cs.take quasis.length)) :
    J.Lowers ((es.take quasis.length).map (.expr .value)) (template v loc quasis cs) := by
  unfold template
  split
  · simp only [take_nil, forall₂_nil_right_iff] at h
    rw [h]
    exact .leaf (J.text _ _ _)
  · exact .last (templateParts_lowers quasis h) fun n => .plain rfl rfl

theorem taggedParts_lowers (h : Forall₂ (ExprJudged J) es cs) :
    J.Lowers (es.map (.expr .value)) (taggedParts cs) := by
  induction h with
  | nil => exact .leaf (J.pure 0)
  | cons he _ ih => exact .first he.part fun n => .last ih fun m => J.pure _

theorem arrayElements_lowers (hafter : J.Holds J.zero after) {es : List (Option Expr)}
    {cs : List (Option ExprCode)} (h : Forall₂ (Option.Rel (ExprJudged J)) es cs) :
    J.Lowers ((es.filterMap id).map (.expr .value)) (arrayElements loc after cs) := by
  induction h with
  | nil => exact .leaf (J.pure ())
  | cons he _ ih =>
    cases he with
    | none => exact J.reject
    | some he => exact .first he.value fun _ => .own hafter fun _ => ih

theorem array_lowers {es : List (Option Expr)} {cs : List (Option ExprCode)}
    (h : Forall₂ (Option.Rel (ExprJudged J)) es cs) :
    J.Lowers [.expr role (.array loc es)] (array v loc cs) := by
  refine .node rfl rfl rfl (.ite (fun hv => ?_) fun hv => ?_)
  · refine .own (J.emit rfl (isAdmitted_of_has hv rfl)) fun _ => ?_
    exact arrayElements_lowers (J.emit rfl (isAdmitted_of_has hv rfl)) h
  · refine .last (arrayElements_lowers (J.pure ()) h) fun _ => ?_
    exact J.emit rfl (isAdmitted_of_lacks hv rfl rfl)

theorem map_lowers {es : List (Expr × Expr)} {cs : List (ExprCode × ExprCode)}
    (h : Forall₂ (fun e c => ExprJudged J e.1 c.1 ∧ ExprJudged J e.2 c.2) es cs) :
    J.Lowers [.expr role (.map loc es)] (map v loc cs) := by
  refine .gated rfl rfl rfl rfl fun hv => ?_
  refine .own (J.emit rfl (isAdmitted_of_has (c := .maps) hv rfl)) fun _ => ?_
  rw [Use.uses, Expr.uses]
  induction h with
  | nil => exact .leaf (J.pure ())
  | cons he _ ih =>
    rw [flatMap_cons]
    refine .append (.first he.1.value fun _ => .last he.2.value fun _ => ?_) fun _ => ih
    exact J.emit rfl (isAdmitted_of_has (c := .maps) hv rfl)

theorem attribute_lowers (optional : Bool) (hrole : role.isValue = true) (h : ExprJudged J e c) :
    J.Lowers [.expr role (.attribute loc e property optional)]
      (attributeMember v loc c property optional) := by
  refine J.node rfl ?_
  rw [J.own_comm]
  cases optional with
  | false =>
    rw [show Use.checked? _ = none from rfl, J.since_none, J.zero_add]
    exact .required (J.bind h.value fun _ => J.attributeEval ..)
  | true =>
    rw [show Use.checked? _ = some 12 by cases role <;> first | rfl | cases hrole]
    refine J.checked rfl fun hv => ?_
    exact J.bind h.value fun _ => J.optionalAttribute hv (J.attributeEval ..)

theorem pushAttribute_lowers (optional : Bool) (h : ExprJudged J e c) :
    J.Lowers [.expr .place (.attribute loc e property optional)] (pushAttribute v c property) := by
  refine .acting rfl (by cases optional <;> rfl) ?_
  rw [J.own_comm]
  refine J.bind h.value fun _ => ?_
  cases hname : property.ident? with
  | none => exact J.reject
  | some name => exact J.attributePush _ _ _ _ hname

section

variable (hl : ExprJudged J left l) (hr : ExprJudged J right r)
include hl hr

theorem elementMember_lowers (reach : Reach) (loc : Loc) :
    J.Lowers [.expr .value left, .expr .value right] (elementMember v reach loc l r) := by
  refine .first hl.value fun _ => .last hr.value fun _ => .ite (fun hv => ?_) fun _ => ?_
  · refine J.emit ?_ (isAdmitted_of_has hv ?_) <;> cases reach <;> rfl
  · exact J.looked (.operator _ _) rfl (.ite (fun _ => .plain rfl rfl) fun _ => J.pure ())

theorem element_lowers (optional : Bool) (hrole : role.isValue = true) :
    J.Lowers [.expr role (.element loc left right optional)]
      (if optional then optionalElement v loc l r else elementMember v .eval loc l r) := by
  cases optional with
  | false => exact .node rfl rfl rfl (elementMember_lowers hl hr .eval loc)
  | true =>
    refine .gated rfl (by cases role <;> first | rfl | cases hrole) rfl rfl fun hv => ?_
    exact .first hl.value fun _ => J.optionalElement hv hr.value

theorem pushElement_lowers (optional : Bool) :
    J.Lowers [.expr .place (.element loc left right optional)] (elementMember v .push loc l r) :=
  .node rfl (by cases optional <;> rfl) rfl (elementMember_lowers hl hr .push loc)

theorem selector_lowers :
    J.Lowers [.expr role (.selector loc left right)] (Emit.selector v loc l r) :=
  .node rfl rfl rfl (.first hl.value fun _ => .last hr.value fun _ => .plain rfl rfl)

theorem binary_lowers (op : BinaryOp) :
    J.Lowers [.expr role (.binary loc op left right)] (binary v loc op l r) := by
  have hplain {op : BinaryOp} {text : String} (hop : op.symbol? = some text)
      (hm : Part.isMute (.expr (.binary loc op left right)) = true) :
      J.Lowers [.expr role (.binary loc op left right)] (binary v loc op l r) := by
    unfold binary
    rw [hop]
    exact .node rfl rfl hm (.first hl.kept fun _ => .last hr.value fun _ =>
      .looked (.operator _ _) rfl)
  cases op
  case instanceOf =>
    refine .acting rfl rfl ?_
    rw [show Use.uses v _ = [.expr .value left] ++ [.expr .value right] from rfl, J.all_append,
      ← J.add_assoc, J.own_comm, J.add_assoc]
    exact J.bind hl.kept fun _ => J.instanceOf _ _ _ _ hr.value
  all_goals exact hplain rfl rfl

end

theorem pushAll_lowers (h : Forall₂ (ExprJudged J) es cs) :
    J.Lowers (es.map (.expr .value)) (pushAll cs) := by
  induction h with
  | nil => exact .leaf (J.pure ())
  | cons he _ ih => exact .first he.value fun _ => ih

theorem passed_lowers (h : ExprJudged J e c) : J.Lowers [.expr .referred e] c.passed := by
  unfold ExprCode.passed
  split
  · exact J.reject
  · exact h.referred

theorem passedAll_lowers (h : Forall₂ (ExprJudged J) es cs) :
    J.Lowers (es.map (.expr .referred)) (cs.forM ExprCode.passed) := by
  induction h with
  | nil => exact .leaf (J.pure ())
  | cons he _ ih => exact .first (passed_lowers he) fun _ => ih

theorem call_lowers (h : ExprJudged J e c) (hs : Forall₂ (ExprJudged J) es cs) :
    J.Lowers [.expr role (.call loc e es)] (Emit.call v loc c cs) := by
  have hafter : J.Holds J.zero (afterCall v loc) := .ite (fun _ => .plain rfl rfl) fun _ => J.pure ()
  refine .acting rfl rfl ?_
  rw [J.own_comm]
  simp only [call, Use.uses, Expr.uses, h.name]
  split
  · refine .last (.required (.required ?_)) fun _ => hafter
    exact J.bind (pushAll_lowers hs) fun _ => J.variadicCall ..
  · refine .last ?_ fun _ => hafter
    rw [← singleton_append, J.all_append, J.add_assoc]
    exact J.bind h.value fun _ => J.bind (passedAll_lowers hs) fun _ => J.call ..

theorem updateOperator_lowers (op : UpdateOp) (before : Bool) :
    J.Holds J.zero (updateOperator v loc op before) := .looked (.operator _ _) rfl

theorem unary_lowers (op : UnaryOp) (hrole : op = .refer → role ≠ .referred) (h : ExprJudged J e c) :
    J.Lowers [.expr role (.unary loc op e)] (unary v loc op c) := by
  refine .node rfl rfl rfl ?_
  have hvalue (text : String) : J.Lowers [.expr .value e] (do
      c.value
      let symbol ← operatorSymbol (v.has .internalOperatorNames) text
      emit v (.named .unary symbol) loc.line) :=
    .last h.value fun _ => .looked (.operator _ _) rfl
  cases op
  case refer =>
    simp only [Use.uses, Expr.uses, beq_self_eq_true, if_true, if_neg (hrole rfl)]
    exact h.operand
  case follow => exact .last h.value fun _ => .ite (fun _ => .plain rfl rfl) fun _ => J.pure ()
  all_goals exact hvalue _

theorem target_lowers (h : ExprJudged J e c) : J.Lowers [.expr .place e] c.target := by
  obtain rfl := h.expr
  unfold ExprCode.target
  split
  · rename_i loc a he
    have hvalue := h.value
    rw [Judgment.Lowers, he, ← J.all_refer, ← he] at hvalue
    exact hvalue
  all_goals first | exact h.place | exact J.reject

theorem pattern_lowers {pattern : Bool → Emit Unit} (h : ExprJudged J e c)
    (hp : c.pattern? = some pattern) : J.Lowers [.expr .place e] (pattern false) := by
  have hpattern := h.pattern _ hp false
  rwa [J.bound_false, J.zero_add] at hpattern

theorem store_lowers (drops : Bool) (h : ExprJudged J e c) :
    J.Lowers [.expr .place e] (c.store v drops) := by
  unfold ExprCode.store
  split
  · exact pattern_lowers h ‹_›
  · exact .last h.stored fun _ => J.assignAnd _

theorem storedThrough_lowers (hrole : role.isValue = true) (h : ExprJudged J e c) :
    J.Lowers [.expr role e] (storedThrough c) := by
  obtain rfl := h.expr
  unfold storedThrough
  split
  case h_5 => exact J.reject
  all_goals
    rename_i he
    rw [Judgment.Lowers, J.all_behind hrole (by rw [he]; trivial)]
    exact h.value

theorem declared_lowers (h : ExprJudged J e c) : J.Lowers [.expr .referred e] c.declared := by
  obtain rfl := h.expr
  unfold ExprCode.declared
  split
  · exact h.referred
  · rename_i hrefer
    rw [Judgment.Lowers, J.all_referred hrefer]
    exact h.kept

theorem assignment_lowers (op : AssignOp) (drops : Bool) (hrole : role.defines = false)
    (hc : Use.checked? (.expr role (.assign loc op left right)) = none) (hl : ExprJudged J left l)
    (hr : ExprJudged J right r) :
    J.Lowers [.expr role (.assign loc op left right)] (assignment v loc op l r drops) := by
  refine .node (by simp [Use.isInline, hrole]) hc rfl ?_
  simp only [Use.uses, Expr.uses, hrole, Bool.false_eq_true, if_false, assignment, plainAssignment]
  split
  · split
    · exact .first hr.kept fun _ => store_lowers drops hl
    · exact .first (target_lowers hl) fun _ => .last hr.referred fun _ => J.assignAnd _
  · refine .required (.first (target_lowers hl) fun _ => .last hr.kept fun _ => ?_)
    exact .own (J.binaryAssign _ _) fun _ => .ite (fun _ => J.pop) fun _ => J.pure ()

theorem patternElements_holds (declares : Bool) (h : Forall₂ (ExprJudged J) es cs) :
    J.Holds (J.add (J.bound declares (es.filterMap Expr.elementName?)) (J.all (es.map (.expr .place))))
      (patternElements declares cs) := by
  have hnil : J.add (J.bound declares (filterMap Expr.elementName? []))
      (J.all (map (.expr .place) [])) = J.zero := by
    rw [filterMap_nil, J.bound_nil, map_nil, J.all_nil, J.zero_add]
  induction h with
  | nil =>
    rw [hnil]
    exact J.pure false
  | @cons e c es cs he hes ih =>
    have hnames : (e :: es).filterMap Expr.elementName? =
        e.elementName?.toList ++ es.filterMap Expr.elementName? := by
      cases h : e.elementName? <;> simp [h]
    rw [hnames, map_cons, ← singleton_append, J.all_append, J.bound_exchange]
    cases hes with
    | nil =>
      rw [hnil, J.add_zero]
      exact he.element declares true
    | cons he' hes' => exact J.bind (J.discard (he.element declares false)) fun _ => ih

theorem arrayPattern_holds (declares : Bool) (h : Forall₂ (ExprJudged J) es cs) :
    J.Holds (J.add (J.bound declares (Expr.arrayPattern loc es).bound)
      (J.all [.expr .place (.arrayPattern loc es)])) (arrayPattern v loc cs declares) := by
  refine J.arrayPattern loc (.required (.last (patternElements_holds declares h) fun _ => ?_))
  exact .ite (fun hv => .own (J.emit rfl (isAdmitted_of_has hv rfl)) fun _ => J.pop)
    fun _ => J.pure ()

theorem restElement_holds (declares isLast : Bool) :
    J.Holds (J.add (J.bound declares e.ident?.toList) (J.all [.expr .place (.rest loc e)]))
      (restElement v loc e declares isLast) := by
  unfold restElement
  cases hname : e.ident? with
  | none => exact .required (.required J.reject)
  | some name =>
    have hrest : J.Lowers [.expr .place (.rest loc e)] (do
        require isLast loc .patternElement
        require (v.has .restElements) loc .restUnsupported
        pure ()) :=
      .required (.gated rfl rfl (by simp [Part.isMute, hname]) rfl fun _ => .leaf (J.pure ()))
    rw [J.bound_comm]
    simpa using J.bind hrest fun _ => .last (J.pushName name e.loc declares) fun _ => J.pure true

theorem declaredTarget_holds (takesValue : Bool) (hafter : J.Holds J.zero after)
    (h : ExprJudged J e c) : J.Holds (J.add (J.bound true e.bound) (J.all [.expr .place e]))
      (declaredTarget v c takesValue after) := by
  obtain rfl := h.expr
  unfold declaredTarget
  split
  · rename_i loc name he
    have hname {x : Emit Unit} (hx : J.Holds (J.bound true [name]) x) :
        J.Holds (J.add (J.bound true c.expr.bound) (J.all [.expr .place c.expr])) x := by
      rw [he, show (Expr.ident loc name).bound = [name] from rfl]
      exact .name hx
    exact .ite (fun _ => hname (.last (J.pushName _ _ _) fun _ => hafter)) fun _ =>
      hname (J.declareName _)
  · exact h.pattern _ ‹_› true
  · exact J.reject

theorem assignDeclared_holds (hv : ¬ v.has .valueBeforePush = true) :
    J.Holds J.zero (assignDeclared v c) := by
  unfold assignDeclared
  split
  · exact .own (J.emit rfl (isAdmitted_of_lacks hv rfl rfl)) fun _ => J.pop
  · exact J.assignPop

/-- What a declarator is lowered to, in the order of its code. -/
def Declarator.steps (v : Version) (d : Declarator) : List Use :=
  if v.has .valueBeforePush then d.init.toList.map (.expr .referred) ++ d.id.toList.map (.expr .place)
  else d.id.toList.map (.expr .place) ++ d.init.toList.map (.expr .referred)

theorem Declarator.map_part_steps (v : Version) (ds : List Declarator) :
    (ds.flatMap (steps v)).map Use.part = ds.flatMap (parts v) := by
  rw [map_flatMap]
  congr 1
  funext d
  unfold steps parts
  split <;> rw [map_append, Use.map_part_exprs, Use.map_part_exprs]

theorem declarator_holds {d : Declarator} {c : DeclaratorCode} (fromStack : Bool)
    (h : DeclaratorRel (ExprJudged J) d c) :
    J.Holds (J.add (J.bound true (d.id.toList.flatMap Expr.bound)) (J.all (d.steps v)))
      (declarator v fromStack c) := by
  obtain ⟨hid, hinit⟩ := h
  cases hid with
  | none => exact J.reject
  | @some e ce hid =>
    simp only [declarator, Declarator.steps, Option.toList_some, map_singleton,
      flatMap_singleton]
    refine .required ?_
    split
    · have htarget (takesValue : Bool) := declaredTarget_holds takesValue J.assignPop hid
      cases hinit with
      | none => exact .own (J.pure ()) fun _ => htarget _
      | some hinit =>
        rw [Option.toList_some, map_singleton, J.all_append, ← J.add_assoc, J.bound_comm, J.add_assoc]
        exact J.bind (declared_lowers hinit) fun _ => htarget _
    -- Older versions push the variable first.
    · have htarget (takesValue : Bool) := declaredTarget_holds takesValue (J.pure ()) hid
      cases hinit with
      | none => exact .last (htarget _) fun _ => J.pure ()
      | some hinit =>
        rw [J.all_append, ← J.add_assoc]
        exact J.bind (htarget _) fun _ => .last (declared_lowers hinit) fun _ => assignDeclared_holds ‹_›

theorem declare_holds {ds : List Declarator} {ks : List DeclaratorCode} (fromStack : Bool)
    (h : Forall₂ (DeclaratorRel (ExprJudged J)) ds ks) :
    J.Holds (J.add (J.bound true (ds.flatMap fun d => d.id.toList.flatMap Expr.bound))
      (J.all (ds.flatMap (Declarator.steps v)))) (declare v ks fromStack) := by
  induction h with
  | nil =>
    rw [flatMap_nil, flatMap_nil, J.bound_nil, J.all_nil, J.zero_add]
    exact J.pure ()
  | cons hd _ ih =>
    rw [flatMap_cons, flatMap_cons, J.all_append, J.bound_exchange]
    exact J.bind (declarator_holds fromStack hd) fun _ => ih

theorem expressionStatement_lowers (h : ExprJudged J e c) :
    J.Lowers [.expr .value e] (expressionStatement v c) :=
  .last h.value fun _ => .ite (fun _ => J.pop) fun _ => J.pure ()

theorem print_lowers (h : Forall₂ (ExprJudged J) es cs) :
    J.Lowers (es.map (.expr .value)) (Emit.print v loc cs) :=
  .last (pushAll_lowers h) fun _ => .own (.plain rfl rfl) fun _ => J.pop

theorem staticValue_lowers {name : String} (declarationLoc : Loc) (op : AssignOp)
    (hleft : left.ident? = some name) (hl : ExprJudged J left l) (hr : ExprJudged J right r) :
    J.Lowers [.expr .value right] (staticValue v declarationLoc name op l r) := by
  have hpush : J.Holds J.zero (pushName v name l.loc false) := by
    have hname := J.pushName name l.loc false
    rwa [J.bound_false] at hname
  refine .ite (fun _ => .ite (fun _ => ?_) fun _ => ?_) fun _ => .required ?_
  · exact .last hr.value fun _ => J.named hleft (store_lowers true hl)
  · exact .own hpush fun _ => .last hr.value fun _ => J.assignPop
  · exact .own hpush fun _ => .last hr.value fun _ => .own (J.binaryAssign _ _) fun _ => J.pop

theorem staticName_lowers (role : Role) (loc nameLoc : Loc) (name : String) :
    J.Lowers [.expr role (.staticDecl loc (.ident nameLoc name))] (staticName v loc name nameLoc) := by
  exact .acting rfl rfl (.name (J.define _ rfl rfl rfl fun _ _ => .check))

theorem staticAssignment_lowers (role : Role) (loc assignLoc : Loc) (op : AssignOp)
    (hl : ExprJudged J left l) (hr : ExprJudged J right r) :
    J.Lowers [.expr role (.staticDecl loc (.assign assignLoc op left right))]
      (staticAssignment v loc assignLoc op l r) := by
  unfold staticAssignment
  cases hname : l.name? with
  | none => exact J.reject
  | some name =>
    obtain ⟨nameLoc, rfl⟩ := Expr.exists_of_ident? (hl.name ▸ hname)
    have hvalue : J.Lowers [.expr .asStatic (.assign assignLoc op (.ident nameLoc name) right)]
        (staticValue v assignLoc name op l r) :=
      .node rfl rfl rfl (staticValue_lowers assignLoc op rfl hl hr)
    have hdefine : J.Holds (J.own (.expr (.staticDecl loc (.assign assignLoc op (.ident nameLoc name) right))))
        (do
          let symbol ← symbol name
          emit v (.named .staticDefine symbol) loc.line
          discard (define .static symbol)
          addMember symbol) := J.define (fun _ _ => pure ()) rfl rfl rfl fun _ _ => J.pure ()
    have hall := J.bind hdefine fun _ => hvalue
    simp only [bind_assoc] at hall
    exact .acting rfl rfl hall

theorem defineAttribute_holds {p : Part} {name : String} (loc : Loc) (hp : p.isMember = true)
    (hm : p.members = [name]) : J.Holds (J.own p) (defineAttribute v name loc) :=
  J.define _ hp hm rfl fun _ _ => .check

theorem attributeName_lowers (role : Role) (loc nameLoc : Loc) (name : String) :
    J.Lowers [.expr role (.attributeDecl loc (.ident nameLoc name))] (attributeName v name nameLoc) :=
  .acting rfl rfl (.name (.own (.plain rfl rfl) fun _ => defineAttribute_holds nameLoc rfl rfl))

theorem attributeAssignment_lowers (role : Role) (loc assignLoc : Loc) (op : AssignOp)
    (hl : ExprJudged J left l) (hr : ExprJudged J right r) :
    J.Lowers [.expr role (.attributeDecl loc (.assign assignLoc op left right))]
      (attributeAssignment v loc l r) := by
  unfold attributeAssignment
  cases hname : l.name? with
  | none => exact .required J.reject
  | some name =>
    obtain ⟨nameLoc, rfl⟩ := Expr.exists_of_ident? (hl.name ▸ hname)
    have hvalue : J.Lowers [.expr .asAttribute (.assign assignLoc op (.ident nameLoc name) right)] (do
        require (v.has .attributeDefaults) loc .attributeDefaultUnsupported
        r.value) := .gated rfl rfl rfl rfl fun _ => hr.value
    refine .acting rfl rfl ?_
    rw [J.own_comm, ← bind_assoc]
    exact J.bind hvalue fun _ => defineAttribute_holds l.loc rfl rfl

section

variable {a : J.Index} {u : Use} {f : Draft → Emit Draft} {cause : Cause}

theorem requiredParameter (b : Bool) (hf : J.Readies a f) :
    J.Readies a fun child => require b loc cause >>= fun _ => f child := by
  cases b with
  | false => exact J.noParameter loc cause
  | true => exact hf

theorem gatedParameter {c : Capability} {n : Nat} (hu : u.isInline = true) (hn : u.checked? = some n)
    (hm : u.part.isMute = true) (hc : c.span = (n, 13)) (hf : J.Readies (J.all (u.uses v)) f) :
    J.Readies (J.all [u]) fun child => require (v.has c) loc cause >>= fun _ => f child := by
  refine J.parameterNode hu ?_
  rw [hn, J.own_mute hu hm, J.zero_add]
  exact J.checkedParameter hc hf

theorem nameParameter_readies (name : String) :
    J.Readies (J.all [.expr .param (.ident loc name)]) (nameParameter v loc name) := by
  refine J.parameterNode rfl ?_
  rw [show Use.checked? _ = none from rfl, J.since_none, J.own_mute rfl rfl, J.zero_add, J.zero_add]
  exact J.declaredParameter name false (.leaf (.plain rfl rfl))

theorem restParameter_readies :
    J.Readies (J.all [.expr .param (.rest loc e)]) (restParameter v loc e) := by
  unfold restParameter
  cases hname : e.ident? with
  | none => exact requiredParameter _ (J.noParameter _ _)
  | some name =>
    exact gatedParameter rfl rfl (by simp [Part.isMute, hname]) rfl
      (J.declaredParameter name true (.leaf (.plain rfl rfl)))

section

variable (hl : l.name? = left.ident?) (hr : J.Lowers [.expr .value right] r.value)
include hl hr

theorem assignedParameter_readies (op : AssignOp) :
    J.Readies (J.all [.expr .param (.assign loc op left right)]) (assignedParameter v loc l r) := by
  unfold assignedParameter
  cases hname : l.name? with
  | none => exact requiredParameter _ (requiredParameter _ (J.noParameter _ _))
  | some name =>
    obtain ⟨nameLoc, rfl⟩ := Expr.exists_of_ident? (hl ▸ hname)
    exact gatedParameter rfl rfl rfl rfl (requiredParameter _ (J.declaredParameter name false hr))

theorem patternParameter_readies :
    J.Readies (J.all [.expr .param (.assignPattern loc left right)]) (patternParameter v loc l r) := by
  unfold patternParameter
  cases hname : l.name? with
  | none => exact requiredParameter _ (requiredParameter _ (J.noParameter _ _))
  | some name =>
    obtain ⟨nameLoc, rfl⟩ := Expr.exists_of_ident? (hl ▸ hname)
    exact gatedParameter rfl rfl rfl rfl (requiredParameter _ (J.declaredParameter name false hr))

end

end

end Adhoc
