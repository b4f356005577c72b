import Adhoc.Proofs.Parallel

namespace Adhoc

open List Draft

namespace Terms.Parallel

variable {T : Terms} {α : Type} {n k m : String} {loc loc' : Loc} {line line' : UInt32}

theorem pop : T.Each n Emit.pop := by
  unfold Each Emit.pop
  rw [T.has_eq .newPop rfl]
  exact .emit _ .refl

theorem assign : T.Each n Emit.assign := by
  unfold Each Emit.assign
  rw [T.has_eq .newAssign rfl]
  exact .emit _ .refl

theorem assignPop : T.Each n Emit.assignPop := by
  unfold Each Emit.assignPop
  rw [T.has_eq .assignPop rfl]
  exact .ite (.emit _ .refl) (.bind .assign fun _ => .pop)

theorem assignAnd (drops : Bool) : T.Each n (Emit.assignAnd · drops) :=
  .ite .assignPop .assign

theorem stateOperation_eq (state : RunState) :
    Emit.stateOperation T.left state = Emit.stateOperation T.right state := by
  unfold Emit.stateOperation
  rw [T.has_eq .newSetState rfl]

theorem setState (state : RunState) :
    T.Parallel n n (Emit.setState T.left state) (Emit.setState T.right state) := by
  unfold Emit.setState
  rw [stateOperation_eq]
  exact .emit _ .refl

theorem dropDepth (d : Int) : T.Alone n (Emit.onFrame (dropDepth d)) := .onFrame (dropDepth_blind d)

theorem handOff (state : RunState) :
    T.Parallel n n (Emit.handOff T.left state) (Emit.handOff T.right state) := by
  unfold Emit.handOff
  rw [stateOperation_eq]
  exact .bind (.emitUntracked _ _) fun _ => .dropDepth 1

theorem bareReturn : T.Each n Emit.bareReturn := by
  unfold Each Emit.bareReturn
  rw [stateOperation_eq]
  exact .emitUntracked _ _

theorem void : T.Each n Emit.void := by
  unfold Each Emit.void
  rw [T.has_eq .voidInsteadOfNop rfl]
  exact .emit _ .refl

theorem emptyReturn : T.Each n Emit.emptyReturn := by
  unfold Each Emit.emptyReturn
  rw [T.has_eq .voidForEmptyReturn rfl]
  exact .ite (.bind .void fun _ => .handOff _) .bareReturn

theorem frameExit : T.Each n Emit.frameExit := by
  refine .frame fun d d' hd => ?_
  obtain ⟨code, rfl, -⟩ := hd
  exact .ite (.pure ()) .emptyReturn

theorem binaryAssign (op : AssignOp) : T.Both n (Emit.binaryAssign · op ·) := by
  intro loc loc' hloc
  beta_reduce
  unfold Emit.binaryAssign
  cases op.symbol? with
  | none => exact .reject hloc _
  | some text =>
    dsimp only
    rw [T.has_eq .internalOperatorNames rfl, T.has_eq .binaryAssign rfl]
    refine .bind (.operatorSymbol _ _) fun symbol => .ite (.emit _ hloc.line) ?_
    exact .bind (.emit _ hloc.line) fun _ => .assign

theorem access (reach : Reach) (symbol : Symbol) (use : Access) (hline : T.Level line line') :
    T.Parallel n n (Emit.access T.left reach symbol use line)
      (Emit.access T.right reach symbol use line') := by
  refine .bind (.onFrame (resolve_blind _ _)) fun index => .bind ?_ fun names => .emit _ hline
  refine .frame fun d d' hd => ?_
  obtain ⟨code, rfl, -⟩ := hd
  exact .pure _

theorem readName (name : String) : T.Both n (Emit.readName · name ·) := fun hloc =>
  .bind (.symbol _) fun _ => .access _ _ _ hloc.line

theorem pushName (name : String) (declares : Bool) : T.Both n (Emit.pushName · name · declares) := fun hloc =>
  .bind (.symbol _) fun _ => .access _ _ _ hloc.line

theorem declareName (name : String) : T.Alone n (Emit.declareName name) :=
  .bind (.symbol _) fun _ => .discard (.onFrame (resolve_blind _ _))

theorem readTemporary (symbol : Symbol) (hline : T.Level line line') :
    T.Parallel n n (Emit.readTemporary T.left symbol line) (Emit.readTemporary T.right symbol line') :=
  .bind (.onFrame (localIndex_blind _)) fun _ => .emit _ hline

theorem newTemporary {value value' : Emit Unit} (hvalue : T.Parallel n m value value')
    (stem : String) (hloc : T.Near loc loc') :
    T.Parallel n m (Emit.newTemporary T.left value stem loc)
      (Emit.newTemporary T.right value' stem loc') := by
  unfold Emit.newTemporary
  rw [T.has_eq .valueBeforePush rfl]
  refine .bind (.temporary _) fun symbol => ?_
  split
  · exact .bind hvalue fun _ => .bind (.pushName _ _ hloc) fun _ => .bind .assignPop fun _ => .pure _
  · exact .bind (.pushName _ _ hloc) fun _ => .bind hvalue fun _ => .bind .assignPop fun _ => .pure _

theorem member (reach : Reach) (parts : List String) : T.Both n (Emit.member · reach parts ·) := by
  intro loc loc' hloc
  refine .bind (.splitPath _) fun r => ?_
  exact .bind (.onFrame (resolve_blind _ _)) fun _ => .emit _ hloc.line

theorem freeAll (free : Slots → Symbol → Slots) (symbols : List Symbol) :
    T.Alone n (Emit.freeAll free symbols) :=
  .change (fun _ _ => rfl) (fun _ => rfl) (fun _ => rfl) fun _ => rfl

theorem leaveScope (leaves : Bool) :
    T.Parallel n n (Emit.leaveScope T.left leaves) (Emit.leaveScope T.right leaves) := by
  have hleave : T.Each n (Emit.markLeave · leaves) := by
    simp only [Each, Emit.markLeave, T.has_eq .leave rfl]
    refine .ite (.frame fun d d' hd => ?_) (.pure ())
    obtain ⟨code, rfl, -⟩ := hd
    exact .emit _ .refl
  rw [Emit.leaveScope_eq, Emit.leaveScope_eq, T.has_eq .freesOnLeave rfl]
  refine .bind (.onFrame popScope_blind) fun scope => .ite ?_ hleave
  exact .bind (.freeAll _ _) fun _ => hleave

theorem leaveModuleScope : T.Each n Emit.leaveModuleScope := by
  have hleave : T.Each n Emit.markModuleLeave := by
    simp only [Each, Emit.markModuleLeave, T.has_eq .leave rfl]
    refine .ite (.get fun s d hd => ?_) (.pure ())
    obtain ⟨code, rfl, -⟩ := hd
    exact .emit _ .refl
  unfold Each Emit.leaveModuleScope
  rw [T.has_eq .freesOnLeave rfl]
  refine .bind (.onFrame popScope_blind) fun scope => .ite ?_ hleave
  exact .bind (.freeAll _ _) fun _ => hleave

end Terms.Parallel

namespace Terms

section

variable {α γ : Type} (R : α → String → String → γ → γ → Prop)

/-- Codes of parts that come one after the other. -/
inductive Chain : List α → String → String → List γ → List γ → Prop
  | nil {n : String} : Chain [] n n [] []
  | cons {a : α} {as : List α} {n k m : String} {c c' : γ} {cs cs' : List γ} : R a n k c c' →
    Chain as k m cs cs' → Chain (a :: as) n m (c :: cs) (c' :: cs')

/-- Codes of something that may be missing. -/
inductive Perhaps : Option α → String → String → Option γ → Option γ → Prop
  | none {n : String} : Perhaps none n n none none
  | some {a : α} {n m : String} {c c' : γ} : R a n m c c' → Perhaps (some a) n m (some c) (some c')

end

section

variable {α γ : Type} {R : α → String → String → γ → γ → Prop} {n m : String}

theorem Perhaps.isSome_eq {a : Option α} {c c' : Option γ} (h : Perhaps R a n m c c') :
    c.isSome = c'.isSome := by
  cases h <;> rfl

variable {as : List α} {cs cs' : List γ}

theorem Chain.length_eq (h : Chain R as n m cs cs') : cs.length = cs'.length := by
  induction h with
  | nil => rfl
  | cons _ _ ih => rw [length_cons, length_cons, ih]

theorem Chain.isEmpty_eq (h : Chain R as n m cs cs') : cs.isEmpty = cs'.isEmpty := by
  cases h <;> rfl

/-- The same is done with each of the parts. -/
theorem Chain.forM {T : Terms} {f f' : γ → Emit Unit} (h : Chain R as n m cs cs')
    (hf : ∀ {a n m c c'}, R a n m c c' → T.Parallel n m (f c) (f' c')) :
    T.Parallel n m (cs.forM f) (cs'.forM f') := by
  induction h with
  | nil => exact .pure ()
  | cons h _ ih => exact .bind (hf h) fun _ => ih

end

section

variable (T : Terms)

/-- The expression in the first program. -/
abbrev first (e : Expr) : Expr := e.filled T.fill

/-- The expression in the second program. -/
abbrev second (e : Expr) : Expr := (e.filled T.fill').moved T.move

/-- The codes of an expression on both sides, for each place that it may stand in. The source is named
`n` before the expression and `m` after it. -/
structure ExprParallel (e : Expr) (n m : String) (c c' : ExprCode) : Prop where
  expr : c.expr = T.first e
  expr' : c'.expr = T.second e
  value : T.Parallel n m c.value c'.value
  kept : T.Parallel n m c.kept c'.kept
  referred : T.Parallel n m c.referred c'.referred
  underRefer : T.Parallel n m c.underRefer c'.underRefer
  place : T.Parallel n m c.place c'.place
  stored : T.Parallel n m c.stored c'.stored
  steps : T.Parallel n m c.steps c'.steps
  asStatic : ∀ {loc loc'}, T.Near loc loc' → T.Parallel n m (c.asStatic loc) (c'.asStatic loc')
  asAttribute : ∀ {loc loc'}, T.Near loc loc' →
    T.Parallel n m (c.asAttribute loc) (c'.asAttribute loc')
  element : ∀ declares isLast, T.Parallel n m (c.element declares isLast) (c'.element declares isLast)
  pattern : Option.Rel (fun p p' => ∀ declares, T.Parallel n m (p declares) (p' declares))
    c.pattern? c'.pattern?
  param : T.ParallelDraft n m c.param c'.param
  part : T.Parallel n m c.part c'.part

abbrev ExprsParallel : List Expr → String → String → List ExprCode → List ExprCode → Prop :=
  Chain T.ExprParallel

/-- The codes of an entry of a map. -/
def PairParallel (e : Expr × Expr) (n m : String) (c c' : ExprCode × ExprCode) : Prop :=
  ∃ k, T.ExprParallel e.1 n k c.1 c'.1 ∧ T.ExprParallel e.2 k m c.2 c'.2

end

variable {T : Terms} {n j k m : String} {e : Expr} {c c' : ExprCode} {loc loc' : Loc}

theorem ParallelDraft.reject (hloc : T.Near loc loc') (cause : Cause) :
    T.ParallelDraft n m (fun _ => Emit.reject loc cause) fun _ => Emit.reject loc' cause := by
  intro child s s' h
  obtain ⟨d, rfl, code, rfl, -⟩ := h.like
  exact .error ⟨rfl, fun hexact => by rw [hloc hexact]; rfl⟩

theorem near_moved (T : Terms) (e : Expr) : T.Near e.loc (e.moved T.move).loc := by
  cases e with
  | ident loc name =>
    intro hexact
    change loc = if name = "__LINE__" then loc else T.move loc
    rw [T.move_eq hexact, id, ite_self]
  | _ => exact T.near_move _

theorem near_first (T : Terms) (e : Expr) : T.Near (T.first e).loc (T.second e).loc := by
  simpa using T.near_moved (e.filled T.fill')

theorem kind_first (T : Terms) (e : Expr) : (T.first e).kind = (T.second e).kind := by simp

namespace ExprParallel

theorem stepOf {value value' : Emit Unit} (e : Expr) (h : T.Parallel n m value value') :
    T.Parallel n m (ExprCode.stepOf T.left (T.first e) value)
      (ExprCode.stepOf T.right (T.second e) value') := by
  have hloc := T.near_first e
  unfold ExprCode.stepOf
  cases e with
  | update | call => exact .bind h fun _ => .pop
  | assign => exact h
  | _ => exact .reject hloc _

theorem ofValue {value value' : Emit Unit} (e : Expr) (h : T.Parallel n m value value') :
    T.ExprParallel e n m (.ofValue T.left (T.first e) value)
      (.ofValue T.right (T.second e) value') := by
  have hloc := T.near_first e
  have hreject : ∀ {α : Type} (cause : String → Cause),
      T.Parallel n m (Emit.reject (T.first e).loc (cause (T.first e).kind) : Emit α)
        (Emit.reject (T.second e).loc (cause (T.second e).kind)) := by
    intro α cause
    rw [T.kind_first]
    exact .reject hloc _
  exact {
    expr := rfl
    expr' := rfl
    value := h
    kept := h
    referred := h
    underRefer := h
    place := hreject .unaryOperand
    stored := hreject .assignmentTarget
    steps := stepOf e h
    asStatic := fun _ => .reject hloc _
    asAttribute := fun _ => .reject hloc _
    element := fun _ _ => .reject hloc _
    pattern := .none
    param := .reject hloc _
    part := hreject .unsupportedExpression }

theorem ofNothing (e : Expr) :
    T.ExprParallel e n m (.ofNothing T.left (T.first e)) (.ofNothing T.right (T.second e)) := by
  unfold ExprCode.ofNothing
  rw [T.kind_first]
  exact ofValue e (.reject (T.near_first e) _)

variable (h : T.ExprParallel e n m c c')
include h

theorem near : T.Near c.loc c'.loc := by
  rw [ExprCode.loc, ExprCode.loc, h.expr, h.expr']
  exact T.near_first e

theorem kind_eq : c.kind = c'.kind := by
  rw [ExprCode.kind, ExprCode.kind, h.expr, h.expr', T.kind_first]

theorem name?_left : c.name? = e.ident? := by
  rw [ExprCode.name?, h.expr, e.ident?_filled]

theorem name?_eq : c.name? = c'.name? := by
  rw [h.name?_left, ExprCode.name?, h.expr', Expr.ident?_moved, e.ident?_filled]

theorem step :
    T.Parallel n m (c.step T.left) (c'.step T.right) := by
  unfold ExprCode.step
  rw [h.expr, h.expr']
  exact stepOf e h.value

theorem target : T.Parallel n m c.target c'.target := by
  have hloc := h.near
  unfold ExprCode.target
  rw [h.kind_eq, h.expr, h.expr']
  cases e with
  | unary loc op e =>
    cases op with
    | refer => exact h.value
    | _ => exact .reject hloc _
  | ident | «attribute» | element | path => exact h.place
  | _ => exact .reject hloc _

theorem store (drops : Bool) :
    T.Parallel n m (c.store T.left drops) (c'.store T.right drops) := by
  unfold ExprCode.store
  have hpattern := h.pattern
  generalize c.pattern? = p at hpattern
  generalize c'.pattern? = p' at hpattern
  cases hpattern with
  | none => exact .bind h.stored fun _ => .assignAnd drops
  | some hp => exact hp false

theorem declared : T.Parallel n m c.declared c'.declared := by
  unfold ExprCode.declared
  rw [h.expr, h.expr']
  cases e with
  | unary loc op e =>
    cases op with
    | refer => exact h.referred
    | _ => exact h.kept
  | _ => exact h.kept

theorem passed : T.Parallel n m c.passed c'.passed := by
  have hloc := h.near
  unfold ExprCode.passed
  rw [h.expr, h.expr']
  cases e with
  | spread => exact .reject hloc _
  | _ => exact h.referred

end ExprParallel

end Terms

namespace Terms.Parallel

variable {T : Terms} {n j k m : String} {a b d e : Expr} {left left' right right' c c' : ExprCode}
  {es : List Expr} {cs cs' : List ExprCode} {loc loc' : Loc}

theorem gatedConstant {gate : Capability} (hgate : gate.isLowered = true ∨ gate = .smallIntConstants)
    (what : String) (value : Constant) :
    T.Both n (Emit.gatedConstant · gate · what value) := by
  intro loc loc' hloc
  beta_reduce
  have hsame : T.left.has gate = T.right.has gate →
      T.Parallel n n (Emit.gatedConstant T.left gate loc what value)
        (Emit.gatedConstant T.right gate loc' what value) := by
    intro h
    unfold Emit.gatedConstant
    rw [h]
    exact .bind (.require _ hloc _) fun _ => .emit _ hloc.line
  rcases hgate with hgate | rfl
  · exact hsame (T.has_eq gate hgate)
  · rcases T.small with h | ⟨hright, hexcused⟩
    · exact hsame h
    · cases hleft : T.left.has .smallIntConstants with
      | true => exact hsame (hleft.trans hright.symm)
      | false =>
        intro s s' _
        unfold Emit.gatedConstant
        rw [hleft]
        exact .excuse _ (hexcused _)

theorem text (content : String) (hexEscaped : Bool) : T.Both n (Emit.text · · content hexEscaped) := by
  intro loc loc' hloc
  beta_reduce
  unfold Emit.text
  rw [T.has_eq .stringPushForEmptyString rfl]
  exact .ite (.emit _ hloc.line) (.bind (.stringSymbol _ _) fun _ => .emit _ hloc.line)

theorem literal (value : Literal) : T.Both n (Emit.literal · · value) := by
  intro loc loc' hloc
  cases value with
  | nil | int | float | long => exact .emit _ hloc.line
  | bool b =>
    simp only [Emit.literal, T.has_eq .extendedConstants rfl]
    exact .emit _ hloc.line
  | uint | ulong | double => exact .gatedConstant (.inl rfl) _ _ hloc
  | byte | ubyte | short | ushort => exact .gatedConstant (.inr rfl) _ _ hloc
  | symbol name => exact .bind (.symbol _) fun _ => .emit _ hloc.line
  | string content => exact .text _ _ hloc

theorem identifier (hloc : T.Near loc loc') {name : String} (hname : name = "__LINE__" → loc = loc') :
    T.Parallel n n (Emit.identifier T.left loc name) (Emit.identifier T.right loc' name) := by
  unfold Emit.identifier
  split
  · obtain rfl := hname rfl
    rw [T.has_eq .extendedConstants rfl]
    exact .emit _ .refl
  · refine .frame fun d d' hd => ?_
    obtain ⟨code, rfl, -⟩ := hd
    dsimp only
    cases d.source with
    | none => exact .bind (.stringSymbol _ _) fun _ => .emit _ hloc.line
    | some file => exact .bind (.pure file) fun _ => .emit _ hloc.line
  · exact .readName _ hloc

section

variable (quasis : List Quasi)
  (h : T.ExprsParallel (es.take quasis.length) n m (cs.take quasis.length) (cs'.take quasis.length))
include h

theorem templateParts : T.Parallel n m (Emit.templateParts T.left quasis cs)
    (Emit.templateParts T.right (quasis.map (Quasi.moved T.move)) cs') := by
  induction quasis generalizing es cs cs' n with
  | nil =>
    cases h
    exact .pure 0
  | cons q quasis ih =>
    refine .bind (.stringSymbol _ _) fun symbol => .bind (.emit _ (T.near_move q.loc).line) fun _ => ?_
    rcases es with _ | ⟨e, es⟩ <;> rcases cs with _ | ⟨c, cs⟩ <;> rcases cs' with _ | ⟨c', cs'⟩ <;>
      simp only [length_cons, take_succ_cons, take_nil] at h <;> cases h
    · exact .bind (@ih _ [] [] [] (by simpa using .nil)) fun n => .pure _
    · rename_i he hes
      exact .bind he.value fun _ => .bind (ih hes) fun n => .pure _

theorem template (hloc : T.Near loc loc') : T.Parallel n m (Emit.template T.left loc quasis cs)
    (Emit.template T.right loc' (quasis.map (Quasi.moved T.move)) cs') := by
  have hparts := bind (templateParts quasis h) fun count =>
    emit (.counted .stringPush count) hloc.line
  match quasis, cs, cs' with
  | [q], [], [] =>
    simp only [length_cons, length_nil, take_nil] at h
    generalize es.take 1 = ds at h
    cases h
    exact .text _ _ hloc
  | [q], [], _ :: _ | [q], _ :: _, [] =>
    exact absurd h.length_eq (by simp)
  | [], _, _ | [q], _ :: _, _ :: _ | _ :: _ :: _, _, _ => exact hparts

end

theorem taggedParts (h : T.ExprsParallel es n m cs cs') :
    T.Parallel n m (Emit.taggedParts cs) (Emit.taggedParts cs') := by
  induction h with
  | nil => exact .pure 0
  | cons he _ ih => exact .bind he.part fun _ => .bind ih fun _ => .pure _

theorem tagged (hloc : T.Near loc loc') (h : T.ExprsParallel es n m cs cs') :
    T.Parallel n m (Emit.tagged T.left loc cs) (Emit.tagged T.right loc' cs') :=
  .bind (.taggedParts h) fun _ => .emit _ hloc.line

section

variable {es : List (Option Expr)} {cs cs' : List (Option ExprCode)}

theorem arrayElements (hloc : T.Near loc loc') {after after' : Emit Unit}
    (hafter : ∀ n, T.Parallel n n after after') (h : Chain (Perhaps T.ExprParallel) es n m cs cs') :
    T.Parallel n m (Emit.arrayElements loc after cs) (Emit.arrayElements loc' after' cs') := by
  induction h with
  | nil => exact .pure ()
  | cons he _ ih =>
    cases he with
    | none => exact .reject hloc _
    | some he => exact .bind he.value fun _ => .bind (hafter _) fun _ => ih

theorem array (hloc : T.Near loc loc') (h : Chain (Perhaps T.ExprParallel) es n m cs cs') :
    T.Parallel n m (Emit.array T.left loc cs) (Emit.array T.right loc' cs') := by
  unfold Emit.array
  rw [T.has_eq .newArrayConst rfl, h.length_eq]
  refine .ite ?_ ?_
  · exact .bind (.emit _ hloc.line) fun _ => .arrayElements hloc (fun _ => .emit _ .refl) h
  · exact .bind (.arrayElements hloc (fun _ => .pure ()) h) fun _ => .emit _ hloc.line

end

theorem map (hloc : T.Near loc loc') {es : List (Expr × Expr)} {cs cs' : List (ExprCode × ExprCode)}
    (h : Chain T.PairParallel es n m cs cs') :
    T.Parallel n m (Emit.map T.left loc cs) (Emit.map T.right loc' cs') := by
  unfold Emit.map
  rw [T.has_eq .maps rfl]
  refine .bind (.require _ hloc _) fun _ => .bind (.emit _ hloc.line) fun _ => h.forM ?_
  rintro _ _ _ _ _ ⟨k, hkey, hvalue⟩
  exact .bind hkey.value fun _ => .bind hvalue.value fun _ => .emit _ .refl

theorem attributeNames (property : Expr) :
    T.Parallel n n (Emit.attributeNames property) (Emit.attributeNames (property.moved T.move)) := by
  have hloc := T.near_moved property
  have hparts := property.pathParts_moved T.move
  cases property with
  | ident => exact .bind (.symbol _) fun _ => .pure _
  | path =>
    simp only [Expr.moved, Emit.attributeNames] at hparts ⊢
    rw [hparts]
    exact .pathSymbols _
  | _ => exact .reject hloc _

theorem attributeMember (hloc : T.Near loc loc') (property : Expr) (optional : Bool)
    (ha : T.ExprParallel a n m left left') :
    T.Parallel n m (Emit.attributeMember T.left loc left property optional)
      (Emit.attributeMember T.right loc' left' (property.moved T.move) optional) := by
  have hnames := bind (attributeNames (n := m) property) fun names =>
    emit (.pathed .attributeEval names) (T.near_moved property).line
  unfold Emit.attributeMember
  rw [T.has_eq .optionalChaining rfl]
  refine .bind (.require _ hloc _) fun _ => .bind ha.value fun _ => ?_
  cases optional with
  | false => exact hnames
  | true => exact .bind (.emit _ hloc.line) fun _ => .bind (.warn _) fun _ => hnames

theorem pushAttribute (property : Expr) (ha : T.ExprParallel a n m left left') :
    T.Parallel n m (Emit.pushAttribute T.left left property)
      (Emit.pushAttribute T.right left' (property.moved T.move)) := by
  have hloc := T.near_moved property
  unfold Emit.pushAttribute
  rw [property.ident?_moved]
  refine .bind ha.value fun _ => ?_
  split
  · exact .reject hloc _
  · exact .bind (.symbol _) fun _ => .emit _ hloc.line

theorem selfValue : T.Both n Emit.selfValue := by
  intro loc loc' hloc
  unfold Emit.selfValue
  rw [T.has_eq .selfVariable rfl]
  exact .bind (.require _ hloc _) fun _ => .bind (.symbol _) fun _ => .emit _ hloc.line

theorem afterCall : T.Both n Emit.afterCall := by
  intro loc loc' hloc
  unfold Emit.afterCall
  rw [T.has_eq .evalOnCall rfl]
  exact .ite (.emit _ hloc.line) (.pure ())

theorem pushAll (h : T.ExprsParallel es n m cs cs') :
    T.Parallel n m (Adhoc.pushAll cs) (Adhoc.pushAll cs') := h.forM fun h => h.value

theorem variadicCall (hloc : T.Near loc loc') (h : T.ExprsParallel es n m cs cs') :
    T.Parallel n m (Emit.variadicCall T.left loc cs) (Emit.variadicCall T.right loc' cs') := by
  unfold Emit.variadicCall
  rw [h.isEmpty_eq, h.length_eq]
  refine .bind (.require _ hloc _) fun _ => .bind (.require _ hloc _) fun _ => ?_
  exact .bind (.pushAll h) fun _ => .bind (.emit _ hloc.line) fun _ => .warn _

theorem plainCall (hloc : T.Near loc loc') (ha : T.ExprParallel a n k left left')
    (h : T.ExprsParallel es k m cs cs') :
    T.Parallel n m (Emit.plainCall T.left loc left cs) (Emit.plainCall T.right loc' left' cs') := by
  unfold Emit.plainCall
  rw [h.length_eq]
  exact .bind ha.value fun _ => .bind (h.forM fun h => h.passed) fun _ => .emit _ hloc.line

theorem call (hloc : T.Near loc loc') (ha : T.ExprParallel a n k left left')
    (h : T.ExprsParallel es k m cs cs')
    (hname : a.ident? = some "call" → n = k) :
    T.Parallel n m (Emit.call T.left loc left cs) (Emit.call T.right loc' left' cs') := by
  unfold Emit.call
  rw [← ha.name?_eq, ha.name?_left]
  split
  · rename_i hcall
    obtain rfl := hname (by simpa using hcall)
    exact .bind (.variadicCall hloc h) fun _ => .afterCall hloc
  · exact .bind (.plainCall hloc ha h) fun _ => .afterCall hloc

theorem instanceOf (hloc : T.Near loc loc') (hb : T.ExprParallel b n m right right') :
    T.Parallel n m (Emit.instanceOf T.left loc right) (Emit.instanceOf T.right loc' right') :=
  .bind (.symbol _) fun _ => .bind (.emit _ hloc.line) fun _ => .bind hb.value fun _ => .emit _ hloc.line

theorem logicalJump_eq (op : LogicalOp) : Emit.logicalJump T.left op = Emit.logicalJump T.right op := by
  cases op <;> simp only [Emit.logicalJump, T.has_eq .newLogicalInstructions rfl]

section

variable (hloc : T.Near loc loc') (ha : T.ExprParallel a n k left left')
  (hb : T.ExprParallel b k m right right')
include hloc ha hb

theorem elementMember (reach : Reach) :
    T.Parallel n m (Emit.elementMember T.left reach loc left right)
      (Emit.elementMember T.right reach loc' left' right') := by
  unfold Emit.elementMember
  rw [T.has_eq .elementEval rfl, T.has_eq .internalBinaryOperatorNames rfl]
  refine .bind ha.value fun _ => .bind hb.value fun _ => .ite (.emit _ .refl) ?_
  refine .bind (.operatorSymbol _ _) fun symbol => .bind (.emit _ hloc.line) fun _ => ?_
  exact .ite (.emit _ .refl) (.pure ())

theorem optionalElement :
    T.Parallel n m (Emit.optionalElement T.left loc left right)
      (Emit.optionalElement T.right loc' left' right') := by
  unfold Emit.optionalElement
  rw [T.has_eq .optionalChaining rfl]
  refine .bind (.require _ hloc _) fun _ => .bind ha.value fun _ => .bind (.emit _ hloc.line) fun _ => ?_
  exact .bind hb.value fun _ => .bind (.emit _ .refl) fun _ => .warn _

theorem selector :
    T.Parallel n m (Emit.selector T.left loc left right) (Emit.selector T.right loc' left' right') :=
  .bind ha.value fun _ => .bind hb.value fun _ => .emit _ hloc.line

theorem binary (op : BinaryOp) :
    T.Parallel n m (Emit.binary T.left loc op left right)
      (Emit.binary T.right loc' op left' right') := by
  unfold Emit.binary
  rw [T.has_eq .internalBinaryOperatorNames rfl]
  refine .bind ha.kept fun _ => ?_
  split
  · exact .bind hb.value fun _ => .bind (.operatorSymbol _ _) fun _ => .emit _ hloc.line
  · exact .instanceOf hloc hb

theorem coalesce :
    T.Parallel n m (Emit.coalesce T.left loc left right)
      (Emit.coalesce T.right loc' left' right') := by
  unfold Emit.coalesce
  rw [T.has_eq .nullCoalescing rfl]
  refine .bind (.require _ hloc _) fun _ => .bind ha.kept fun _ => .bind (.jump _ hloc.line) fun jump => ?_
  exact .bind hb.value fun _ => .bind (.patchHere jump) fun _ => .warn _

theorem logical (op : LogicalOp) :
    T.Parallel n m (Emit.logical T.left loc op left right)
      (Emit.logical T.right loc' op left' right') := by
  unfold Emit.logical
  rw [T.has_eq .newLogicalInstructions rfl, logicalJump_eq]
  refine .ite (.coalesce hloc ha hb) (.bind ha.kept fun _ => .bind (.jump _ hloc.line) fun jump => ?_)
  split
  · exact .bind .pop fun _ => .bind hb.value fun _ => .patchHere jump
  · exact .bind hb.value fun _ => .patchHere jump

end

theorem unary (hloc : T.Near loc loc') (op : UnaryOp) (ha : T.ExprParallel a n m left left') :
    T.Parallel n m (Emit.unary T.left loc op left) (Emit.unary T.right loc' op left') := by
  unfold Emit.unary
  rw [T.has_eq .internalOperatorNames rfl, T.has_eq .indirectionEval rfl]
  split
  · exact .bind ha.value fun _ => .bind (.operatorSymbol _ _) fun _ => .emit _ hloc.line
  · exact .ite (.bind ha.value fun _ => .ite (.emit _ .refl) (.pure ())) ha.underRefer

theorem updateOperator (op : UpdateOp) (before : Bool) :
    T.Both n (Emit.updateOperator · · op before) := by
  intro loc loc' hloc
  beta_reduce
  unfold Emit.updateOperator
  rw [T.has_eq .internalOperatorNames rfl]
  exact .bind (.operatorSymbol _ _) fun _ => .emit _ hloc.line

theorem conditional (ha : T.ExprParallel a n j left left') (hb : T.ExprParallel b j k right right')
    (hd : T.ExprParallel d k m c c') :
    T.Parallel n m (Emit.conditional T.left left right c)
      (Emit.conditional T.right left' right' c') := by
  unfold Emit.conditional
  rw [T.has_eq .ternaryPop rfl]
  refine .bind ha.value fun _ => .bind (.jump _ ha.near.line) fun toAlternate =>
    .bind hb.referred fun _ => .bind (.jump _ .refl) fun toEnd => ?_
  split
  · exact .bind .pop fun _ => .bind (.patchHere _) fun _ => .bind hd.value fun _ => .patchHere _
  · exact .bind (.dropDepth 1) fun _ => .bind (.patchHere _) fun _ => .bind hd.value fun _ =>
      .patchHere _

theorem plainAssignment (drops : Bool)
    (hvalue : T.left.has .valueBeforePush = true →
      ∃ k, T.ExprParallel b n k right right' ∧ T.ExprParallel a k m left left')
    (hpush : T.left.has .valueBeforePush = false →
      ∃ k, T.ExprParallel a n k left left' ∧ T.ExprParallel b k m right right') :
    T.Parallel n m (Emit.plainAssignment T.left left right drops)
      (Emit.plainAssignment T.right left' right' drops) := by
  unfold Emit.plainAssignment
  rw [← T.has_eq .valueBeforePush rfl]
  cases hv : T.left.has .valueBeforePush with
  | true =>
    obtain ⟨k, hb, ha⟩ := hvalue hv
    exact .bind hb.kept fun _ => ha.store drops
  | false =>
    obtain ⟨k, ha, hb⟩ := hpush hv
    exact .bind ha.target fun _ => .bind hb.referred fun _ => .assignAnd drops

theorem assignment (hloc : T.Near loc loc') (op : AssignOp) (drops : Bool)
    (hvalue : (op == .assign && T.left.has .valueBeforePush) = true →
      ∃ k, T.ExprParallel b n k right right' ∧ T.ExprParallel a k m left left')
    (hpush : (op == .assign && T.left.has .valueBeforePush) = false →
      ∃ k, T.ExprParallel a n k left left' ∧ T.ExprParallel b k m right right') :
    T.Parallel n m (Emit.assignment T.left loc op left right drops)
      (Emit.assignment T.right loc' op left' right' drops) := by
  unfold Emit.assignment
  cases hop : op == .assign with
  | true =>
    rw [hop, Bool.true_and] at hvalue hpush
    exact .plainAssignment drops hvalue hpush
  | false =>
    obtain ⟨k, ha, hb⟩ := hpush (by rw [hop, Bool.false_and])
    refine .bind (.require _ hloc _) fun _ => .bind ha.target fun _ => .bind hb.kept fun _ => ?_
    exact .bind (.binaryAssign op hloc) fun _ => .ite .pop (.pure ())

theorem storedThrough (ha : T.ExprParallel a n m left left') :
    T.Parallel n m (Emit.storedThrough left) (Emit.storedThrough left') := by
  unfold Emit.storedThrough
  rw [ha.kind_eq, ha.expr, ha.expr']
  cases a with
  | ident | «attribute» | path | element => exact ha.value
  | _ => exact .reject ha.near _

theorem patternElements (declares : Bool) (h : T.ExprsParallel es n m cs cs') :
    T.Parallel n m (Emit.patternElements declares cs) (Emit.patternElements declares cs') := by
  induction h with
  | nil => exact .pure false
  | cons he hes ih =>
    cases hes with
    | nil => exact he.element declares true
    | cons => exact .bind (.discard (he.element declares false)) fun _ => ih

theorem arrayPattern (hloc : T.Near loc loc') (declares : Bool) (h : T.ExprsParallel es n m cs cs') :
    T.Parallel n m (Emit.arrayPattern T.left loc cs declares)
      (Emit.arrayPattern T.right loc' cs' declares) := by
  unfold Emit.arrayPattern
  rw [h.isEmpty_eq, h.length_eq, T.has_eq .newListAssign rfl]
  refine .bind (.require _ hloc _) fun _ => .bind (.patternElements declares h) fun hasRest => ?_
  exact .ite (.bind (.emit _ hloc.line) fun _ => .pop) (.pure ())

theorem restElement (hloc : T.Near loc loc') (argument : Expr) (declares isLast : Bool) :
    T.Parallel n n (Emit.restElement T.left loc argument declares isLast)
      (Emit.restElement T.right loc' (argument.moved T.move) declares isLast) := by
  have hargument := T.near_moved argument
  unfold Emit.restElement
  rw [T.has_eq .restElements rfl, argument.ident?_moved]
  refine .bind (.require _ hloc _) fun _ => .bind (.require _ hloc _) fun _ => ?_
  split
  · exact .reject hargument _
  · exact .bind (.pushName _ _ hargument) fun _ => .pure _

end Terms.Parallel

end Adhoc
