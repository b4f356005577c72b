import Adhoc.Proofs.ParallelExpr

namespace Adhoc

variable {α : Type} {T : Terms} {b : Node}

namespace Terms

section

variable (T : Terms)

/-- The codes of a statement on both sides. -/
structure StmtParallel (s : Stmt) (n m : String) (c c' : StmtCode) : Prop where
  stmt : c.stmt = s.filled T.fill
  stmt' : c'.stmt = (s.filled T.fill').moved T.move
  run : T.Parallel n m c.run c'.run
  block : Option.Rel (T.Parallel n m) c.block? c'.block?
  loop : Option.Rel (fun l l' => ∀ label, T.Parallel n m (l label) (l' label)) c.loop? c'.loop?
  declares : Option.Rel (fun d d' => ∀ fromStack, T.Parallel n m (d fromStack) (d' fromStack))
    c.declares? c'.declares?

inductive NodeParallel : Node → String → String → NodeCode → NodeCode → Prop
  | stmt {s : Stmt} {n m : String} {c c' : StmtCode} : T.StmtParallel s n m c c' →
    NodeParallel (.stmt s) n m (.stmt c) (.stmt c')
  | expr {e : Expr} {n m : String} {c c' : ExprCode} : T.ExprParallel e n m c c' →
    NodeParallel (.expr e) n m (.expr c) (.expr c')

structure ClassParallel (n m : String) (c c' : ClassCode) : Prop where
  id : c'.id = c.id.moved T.move
  superClass : c'.superClass = holeMoved T.move c.superClass
  isModule : c.isModule = c'.isModule
  body : T.Parallel n m (runAll c.body) (runAll c'.body)

/-- The parameters of a routine are lowered in the frame around it, and its body starts with the name
that the source has before them. -/
structure RoutineParallel (r : Routine) (n m : String) (c c' : RoutineCode) : Prop where
  name : c.id.bind Expr.ident? = c'.id.bind Expr.ident?
  isNamed : c.id.isSome = c'.id.isSome
  params : T.ExprsParallel r.params n m c.params c'.params
  body : ∃ k, T.NodeParallel r.body n k c.body c'.body

end

theorem StmtParallel.near {s : Stmt} {n m : String} {c c' : StmtCode}
    (h : T.StmtParallel s n m c c') : T.Near c.loc c'.loc := by
  rw [StmtCode.loc, StmtCode.loc, h.stmt, h.stmt']
  cases s <;> exact T.near_move _

end Terms

namespace Terms.Parallel

variable {n k m : String} {a b e : Expr} {left left' right right' : ExprCode}
  {loc loc' outer outer' : Loc}

theorem addMember (symbol : Symbol) : T.Alone n (Emit.addMember symbol) :=
  .onFrame (Draft.addMember_blind symbol)

theorem staticName (houter : T.Near outer outer') (name : String) (hloc : T.Near loc loc') :
    T.Parallel n n (Emit.staticName T.left outer name loc)
      (Emit.staticName T.right outer' name loc') := by
  refine .bind (.symbol _) fun symbol => .bind (.emit _ houter.line) fun _ => ?_
  exact .bind (.define _ _) fun isNew => .bind (.require _ hloc _) fun _ => .addMember symbol

theorem staticValue (hloc : T.Near loc loc') (name : String) (op : AssignOp)
    (ha : T.ExprParallel a m m left left') (hb : T.ExprParallel b n m right right') :
    T.Parallel n m (Emit.staticValue T.left loc name op left right)
      (Emit.staticValue T.right loc' name op left' right') := by
  unfold Emit.staticValue
  rw [T.has_eq .valueBeforePush rfl]
  refine .ite (.ite (.bind hb.value fun _ => ha.store true) ?_) ?_
  · exact .bind (.pushName _ _ ha.near) fun _ => .bind hb.value fun _ => .assignPop
  · refine .bind (.require _ hloc _) fun _ => .bind (.pushName _ _ ha.near) fun _ => ?_
    exact .bind hb.value fun _ => .bind (.binaryAssign _ hloc) fun _ => .pop

theorem staticAssignment (houter : T.Near outer outer') (hloc : T.Near loc loc') (op : AssignOp)
    (hname : left.name? = left'.name?) (hleft : T.Near left.loc left'.loc)
    (h : left.name?.isSome = true →
      T.ExprParallel a m m left left' ∧ T.ExprParallel b n m right right') :
    T.Parallel n m (Emit.staticAssignment T.left outer loc op left right)
      (Emit.staticAssignment T.right outer' loc' op left' right') := by
  unfold Emit.staticAssignment
  rw [← hname]
  cases hident : left.name? with
  | none => exact .reject hleft _
  | some name =>
    obtain ⟨ha, hb⟩ := h (by rw [hident]; rfl)
    refine .bind (.symbol _) fun symbol => .bind (.emit _ houter.line) fun _ => ?_
    refine .bind (.discard (.define _ _)) fun _ => .bind (.addMember symbol) fun _ => ?_
    exact .staticValue hloc name op ha hb

theorem defineAttribute (name : String) : T.Both n (Emit.defineAttribute · name ·) := by
  intro loc loc' hloc
  refine .bind (.symbol _) fun symbol => .bind (.emit _ hloc.line) fun _ => ?_
  exact .bind (.define _ _) fun isNew => .bind (.require _ hloc _) fun _ => .addMember symbol

theorem attributeName (name : String) : T.Both n (Emit.attributeName · name ·) := fun hloc =>
  .bind (.emit _ hloc.line) fun _ => .defineAttribute name hloc

theorem attributeAssignment (hloc : T.Near loc loc') (hname : left.name? = left'.name?)
    (hleft : T.Near left.loc left'.loc)
    (hb : left.name?.isSome = true → T.ExprParallel b n m right right') :
    T.Parallel n m (Emit.attributeAssignment T.left loc left right)
      (Emit.attributeAssignment T.right loc' left' right') := by
  unfold Emit.attributeAssignment
  rw [T.has_eq .attributeDefaults rfl, ← hname]
  refine .bind (.require _ hloc _) fun _ => ?_
  cases hident : left.name? with
  | none => exact .reject hleft _
  | some name => exact .bind (hb (by rw [hident]; rfl)).value fun _ => .defineAttribute name hleft

theorem delegate (hloc : T.Near loc loc') (id : Expr) :
    T.Parallel n n (Emit.delegate T.left loc id) (Emit.delegate T.right loc' (id.moved T.move)) := by
  have hid := T.near_moved id
  unfold Emit.delegate
  rw [T.has_eq .delegates rfl, id.ident?_moved, id.kind_moved]
  refine .bind (.require _ hloc _) fun _ => ?_
  split
  · exact .reject hid _
  · refine .bind (.symbol _) fun symbol => .bind (.emit _ hloc.line) fun _ => ?_
    refine .bind (.define _ _) fun isNew => .bind (.require _ hid _) fun _ => ?_
    exact .bind (.addMember symbol) fun _ => .warn _

theorem specifierNames (specifiers : List Expr) :
    T.Parallel n n (specifiers.mapM Emit.specifierName)
      ((exprsMoved T.move specifiers).mapM Emit.specifierName) := by
  induction specifiers with
  | nil => exact .pure []
  | cons e es ih =>
    rw [exprsMoved, List.mapM_cons, List.mapM_cons]
    refine .bind ?_ fun _ => .bind ih fun _ => .pure _
    unfold Emit.specifierName
    rw [e.pathName?_moved]
    split
    · exact .pure _
    · exact .reject (T.near_moved e) _

theorem importedSymbols (full : String) (target : Symbol) (wildcard : Bool) :
    T.Alone n (Emit.importedSymbols full target wildcard) := .get fun _ _ _ => .pure _

theorem importName (hloc : T.Near loc loc') (specifiers : List Expr) (target : String)
    (asName : Option String) :
    T.Parallel n n (Emit.importName T.left loc specifiers target asName)
      (Emit.importName T.right loc' (exprsMoved T.move specifiers) target asName) := by
  have hempty : (exprsMoved T.move specifiers).isEmpty = specifiers.isEmpty := by
    cases specifiers <;> rfl
  unfold Emit.importName
  rw [hempty]
  refine .bind (.require _ hloc _) fun _ => .bind (.require _ hloc _) fun _ => ?_
  refine .bind (.specifierNames _) fun parts => .bind (.mapM _ .symbol) fun path => ?_
  refine .bind (.symbol _) fun fullSymbol => .bind (.symbol _) fun targetSymbol => ?_
  refine .bind (.symbol _) fun asSymbol => .bind (.importedSymbols _ _ _) fun imported => ?_
  exact .bind (.onFrame (Draft.addStatics_blind imported)) fun _ => .emit _ hloc.line

theorem modulePath (name : String) (isStatic : Bool) : T.Alone n (Emit.modulePath name isStatic) :=
  .bind (.splitPath _) fun _ => .pure _

theorem baseClass (superClass : Option Expr) : T.Parallel n n (Emit.baseClass T.left superClass)
    (Emit.baseClass T.right (holeMoved T.move superClass)) := by
  unfold Emit.baseClass
  rw [T.has_eq .systemObjectRoot rfl]
  cases superClass with
  | none => exact .ite (.pathSymbols _) (.bind (.symbol _) fun _ => .pure _)
  | some base =>
    simp only [holeMoved, base.pathName?_moved]
    split
    · exact .reject (T.near_moved base) _
    · exact .ite (.pathSymbols _) (.bind (.symbol _) fun _ => .pure _)

theorem enterModule (name : String) : T.Alone n (Emit.enterModule name) :=
  .change (fun _ _ => rfl) (fun _ => rfl) (fun _ => rfl) fun _ => rfl

theorem leaveModule : T.Alone n Emit.leaveModule :=
  .change (fun _ _ => rfl) (fun _ => rfl) (fun _ => rfl) fun _ => rfl

section

variable {c c' : ClassCode}

theorem openClass (hloc : T.Near loc loc') (h : T.ClassParallel k m c c') (name : String)
    (isStatic : Bool) :
    T.Parallel n n (Emit.openClass T.left loc c name isStatic)
      (Emit.openClass T.right loc' c' name isStatic) := by
  unfold Emit.openClass
  rw [h.isModule, h.superClass]
  refine .ite (.bind (.modulePath _ _) fun _ => .emit _ hloc.line) ?_
  exact .bind (.symbol _) fun _ => .bind (.baseClass _) fun _ => .emit _ hloc.line

theorem classDef (hloc : T.Near loc loc') (h : T.ClassParallel n m c c') (isStatic : Bool) :
    T.Parallel n m (Emit.classDef T.left loc c isStatic) (Emit.classDef T.right loc' c' isStatic) := by
  have hid := T.near_moved c.id
  unfold Emit.classDef
  rw [h.id, h.isModule, Expr.pathName?_moved]
  split
  · exact .reject hid _
  · refine .bind (.require _ hid _) fun _ => .bind (.pushScope _) fun _ => .bind (.enterModule _) fun _ => ?_
    refine .bind (.openClass hloc h _ _) fun _ => .bind h.body fun _ => ?_
    exact .bind .leaveModuleScope fun _ => .bind .leaveModule fun _ => .setState _

theorem staticClass (hloc : T.Near loc loc') (h : T.ClassParallel n m c c') :
    T.Parallel n m (Emit.staticClass T.left loc c) (Emit.staticClass T.right loc' c') := by
  unfold Emit.staticClass
  rw [h.isModule]
  exact .ite (.classDef hloc h true) (.reject hloc _)

end

end Terms.Parallel

namespace Terms.ParallelDraft

variable {n k m : String} {a b : Expr} {left left' right right' : ExprCode} {loc loc' : Loc}

theorem bind {p p' q q' : Draft → Emit Draft} (hp : T.ParallelDraft n k p p')
    (hq : T.ParallelDraft k m q q') :
    T.ParallelDraft n m (fun child => p child >>= q) fun child => p' child >>= q' := by
  intro child s s' h
  refine (hp child h).bind fun d t t' ⟨ht, hgrows, hsource⟩ => (hq d ht).mono ?_
  exact fun _ _ _ ⟨hu, hgrows', hsource'⟩ => ⟨hu, hgrows.trans hgrows', hsource'.trans hsource⟩

theorem after {x y : Emit α} {p p' : α → Draft → Emit Draft} (hx : T.Parallel n k x y)
    (hp : ∀ r, T.ParallelDraft k m (p r) (p' r)) :
    T.ParallelDraft n m (fun child => x >>= fun r => p r child) fun child => y >>= fun r => p' r child := by
  intro child s s' h
  refine (hx h).bind fun r t t' ⟨ht, hgrows⟩ => (hp r child ht).mono ?_
  exact fun _ _ _ ⟨hu, hgrows', hsource⟩ => ⟨hu, hgrows.trans hgrows', hsource⟩

theorem pure {f : Draft → Draft} (hf : ∀ d, (f d).source = d.source) :
    T.ParallelDraft n n (fun child => Pure.pure (f child)) fun child => Pure.pure (f child) :=
  fun child _ _ h => .ok _ ⟨h, .refl _, hf child⟩

theorem declareParameter (name : String) :
    T.ParallelDraft n n (Emit.declareParameter name) (Emit.declareParameter name) := by
  refine after (.symbol name) fun symbol child s s' h => ?_
  change Meets _ _ ((Emit.onDraft child (Draft.addParameter symbol) s).bind fun r => .ok (r.1.2, r.2))
    ((Emit.onDraft child (Draft.addParameter symbol) s').bind fun r => .ok (r.1.2, r.2))
  unfold Emit.onDraft
  cases hstep : Draft.addParameter symbol child with
  | error x => exact .same _
  | ok r => exact .ok _ ⟨h, .refl _, Draft.addParameter_source hstep⟩

theorem nameParameter (hloc : T.Near loc loc') (name : String) :
    T.ParallelDraft n n (Emit.nameParameter T.left loc name) (Emit.nameParameter T.right loc' name) :=
  .bind (.declareParameter name) (.after (.emit _ hloc.line) fun _ => .pure fun _ => rfl)

theorem assignedParameter (hloc : T.Near loc loc') (hname : left.name? = left'.name?)
    (hright : right.expr = T.first b ∧ right'.expr = T.second b)
    (hb : left.name?.isSome = true → T.ExprParallel b n m right right') :
    T.ParallelDraft n m (Emit.assignedParameter T.left loc left right)
      (Emit.assignedParameter T.right loc' left' right') := by
  have hliteral : Emit.isLiteral (T.first b) = Emit.isLiteral (T.second b) := by cases b <;> rfl
  unfold Emit.assignedParameter
  rw [T.has_eq .parameterDefaults rfl, hright.1, hright.2, hliteral, ← hname]
  refine .after (.require _ hloc _) fun _ => .after (.require _ hloc _) fun _ => ?_
  cases hident : left.name? with
  | none => exact .reject hloc _
  | some name =>
    have hb := hb (by rw [hident]; rfl)
    exact .bind (.declareParameter name) (.after hb.value fun _ => .pure fun _ => rfl)

theorem patternParameter (hloc : T.Near loc loc') (hname : left.name? = left'.name?)
    (hleft : T.Near left.loc left'.loc) (hb : T.ExprParallel b n m right right') :
    T.ParallelDraft n m (Emit.patternParameter T.left loc left right)
      (Emit.patternParameter T.right loc' left' right') := by
  have hdefault : Emit.isDefault (T.first b) = Emit.isDefault (T.second b) := by
    cases b with
    | unary loc op argument => cases argument <;> rfl
    | _ => rfl
  unfold Emit.patternParameter
  rw [T.has_eq .parameterDefaults rfl, hb.expr, hb.expr', hdefault, ← hname]
  refine .after (.require _ hloc _) fun _ => .after (.require _ hb.near _) fun _ => ?_
  cases left.name? with
  | none => exact .reject hleft _
  | some name => exact .bind (.declareParameter name) (.after hb.value fun _ => .pure fun _ => rfl)

theorem restParameter (hloc : T.Near loc loc') (argument : Expr) :
    T.ParallelDraft n n (Emit.restParameter T.left loc argument)
      (Emit.restParameter T.right loc' (argument.moved T.move)) := by
  unfold Emit.restParameter
  rw [T.has_eq .restElements rfl, argument.ident?_moved]
  refine .after (.require _ hloc _) fun _ => ?_
  cases argument.ident? with
  | none => exact .reject (T.near_moved argument) _
  | some name =>
    exact .bind (.declareParameter name) (.after (.emit _ hloc.line) fun _ => .pure fun _ => rfl)

theorem parameters {es : List Expr} {cs cs' : List ExprCode} (h : T.ExprsParallel es n m cs cs') :
    T.ParallelDraft n m (Emit.parameters cs) (Emit.parameters cs') := by
  induction h with
  | nil => exact .pure fun _ => rfl
  | cons he _ ih => exact .bind he.param ih

end Terms.ParallelDraft

namespace Terms.ParallelIn

variable {β : Type} {child : Draft} {i j k n m : String}

theorem of {x y : Emit α} (h : T.Parallel n m x y) : T.ParallelIn child k n m x y :=
  fun _ _ hs _ => h hs

theorem bind {x y : Emit α} {f g : α → Emit β} (hx : T.Parallel n j x y)
    (hf : ∀ a, T.ParallelIn child k j m (f a) (g a)) :
    T.ParallelIn child k n m (x >>= f) (y >>= g) := by
  intro s s' hs hchild
  refine (hx hs).bind fun a t t' ⟨ht, hgrows⟩ => (hf a ht (hchild.mono rfl hgrows)).mono ?_
  exact fun _ _ _ ⟨hu, hgrows'⟩ => ⟨hu, hgrows.trans hgrows'⟩

theorem draft {p p' : Draft → Emit Draft} {f g : Draft → Emit α} (hp : T.ParallelDraft n j p p')
    (hf : ∀ child, T.ParallelIn child k j m (f child) (g child)) :
    T.ParallelIn child k n m (p child >>= f) (p' child >>= g) := by
  intro s s' hs hchild
  refine (hp child hs).bind fun d t t' ⟨ht, hgrows, hsource⟩ => ?_
  refine (hf d ht (hchild.mono hsource hgrows)).mono ?_
  exact fun _ _ _ ⟨hu, hgrows'⟩ => ⟨hu, hgrows.trans hgrows'⟩

theorem within {body body' : Emit Unit} {f g : Draft → Emit α} (hbody : T.Parallel k j body body')
    (hf : ∀ d d', d.Like T.alike d' → T.Parallel n m (f d) (g d')) :
    T.ParallelIn child k n m (Emit.within child body >>= f) (Emit.within child body' >>= g) := by
  intro s s' hs hchild
  obtain ⟨d, rfl, hd⟩ := hs.like
  have hrun := hbody (s := { s with frame := child })
    ⟨⟨child, rfl, .refl T.matching child⟩, hchild, hs.settled⟩
  rw [show (Emit.within child body >>= f) s = (Emit.within child body s).bind fun p => f p.1 p.2
      from rfl,
    show (Emit.within child body' >>= g) { s with frame := d } =
      (Emit.within child body' { s with frame := d }).bind fun p => g p.1 p.2 from rfl]
  unfold Emit.within
  dsimp only at hrun ⊢
  generalize body { s with frame := child } = r at hrun
  generalize body' { s with frame := child } = r' at hrun
  cases hrun with
  | @ok _ t _ h =>
    obtain ⟨ht, hgrows⟩ := h
    obtain ⟨e, rfl, he⟩ := ht.like
    have hback : T.Pair n { t with frame := s.frame } { t with frame := d } :=
      ⟨⟨d, rfl, hd⟩, hs.sourced.mono rfl hgrows, ht.settled⟩
    refine (hf _ _ he hback).mono ?_
    exact fun _ _ _ ⟨hu, hgrows'⟩ => ⟨hu, hgrows.trans hgrows'⟩
  | error h => exact .error h
  | excuse _ h => exact .excuse _ h

theorem blockBody {c c' : NodeCode} {f g : Emit Unit → Emit α} {o : String}
    (h : T.NodeParallel b i o c c') (hf : ∀ body body', T.Parallel i o body body' →
      T.ParallelIn child k n m (f body) (g body')) :
    T.ParallelIn child k n m (Emit.NodeCode.blockBody c >>= f) (Emit.NodeCode.blockBody c' >>= g) := by
  have hreject : ∀ {loc loc' : Loc}, T.Near loc loc' → T.ParallelIn child k n m
      ((Emit.reject loc .subroutineBodyNotBlock : Emit (Emit Unit)) >>= f)
      ((Emit.reject loc' .subroutineBodyNotBlock : Emit (Emit Unit)) >>= g) :=
    fun hloc => of (.reject hloc _)
  cases h with
  | expr h => exact hreject h.near
  | @stmt s _ _ c c' h =>
    have hblock := h.block
    simp only [Emit.NodeCode.blockBody]
    generalize c.block? = b at hblock
    generalize c'.block? = b' at hblock
    cases hblock with
    | none => exact hreject h.near
    | some hbody => exact hf _ _ hbody

end Terms.ParallelIn

namespace Terms.Parallel

variable {j k n m : String} {loc loc' : Loc} {r : Routine}

theorem newChild {f g : Draft → Emit α} (captures : Bool)
    (hf : ∀ child, T.ParallelIn child n n m (f child) (g child)) :
    T.Parallel n m (Emit.newChild T.left captures >>= f) (Emit.newChild T.right captures >>= g) := by
  intro s s' hs
  obtain ⟨d, rfl, code, rfl, hlike⟩ := hs.like
  have hslots : Slots.empty T.left = Slots.empty T.right := by
    rw [Slots.empty, Slots.empty, T.has_eq .splitStorage rfl]
  have hchild : ∀ (v : Version) (d : Draft) (h : Draft → Emit α) (s : Session), s.frame = d →
      (Emit.newChild v captures >>= h) s =
        h { d.child v captures with scopes := [{ kind := .block }] } s := by
    rintro v d h s rfl
    rfl
  rw [hchild _ s.frame _ _ rfl, hchild _ _ _ _ rfl]
  have heq : ∀ v, Draft.child { s.frame with code := code } v captures = s.frame.child v captures :=
    fun _ => rfl
  rw [heq, show s.frame.child T.right captures = s.frame.child T.left captures by
    simp only [Draft.child, Draft.start, hslots]]
  exact hf _ ⟨⟨_, rfl, code, rfl, hlike⟩, hs.sourced, hs.settled⟩ hs.sourced

theorem reserveSlot_eq (isMethod : Bool) (child : Draft) :
    Emit.reserveSlot T.left isMethod child = Emit.reserveSlot T.right isMethod child := by
  unfold Emit.reserveSlot
  rw [T.has_eq .reservedLocalInFrame rfl]

theorem reserveSlot_source (v : Version) (isMethod : Bool) (child : Draft) :
    (Emit.reserveSlot v isMethod child).source = child.source := by
  unfold Emit.reserveSlot
  split <;> rfl

theorem scope : T.Alone n (Emit.onFrame Draft.scope) :=
  .onFrame Draft.scope_blind

theorem subroutine {c c' : RoutineCode} (hloc : T.Near loc loc') (isMethod : Bool)
    (h : T.RoutineParallel r n m c c') :
    T.Parallel n m (Emit.subroutine T.left loc c isMethod)
      (Emit.subroutine T.right loc' c' isMethod) := by
  rw [Emit.subroutine_eq, Emit.subroutine_eq, h.name]
  split
  · exact .reject hloc _
  · obtain ⟨o, hbody⟩ := h.body
    refine .bind (.symbol _) fun symbol => .newChild false fun child => ?_
    have hrest : T.ParallelIn child n n m
        (Emit.defineRoutine T.left loc c isMethod symbol child)
        (Emit.defineRoutine T.right loc' c' isMethod symbol child) := by
      refine .draft (.parameters h.params) fun child => ?_
      rw [← reserveSlot_eq]
      intro s s' hs hchild
      have hreserved : Session.Sourced n { s with frame := Emit.reserveSlot T.left isMethod child } :=
        hchild.mono (reserveSlot_source _ _ _) (.refl _)
      revert hs hreserved
      generalize Emit.reserveSlot T.left isMethod child = child
      intro hs hchild
      refine ParallelIn.bind .scope (fun scope => ?_) hs hchild
      refine .bind (.require _ hloc _) fun _ => .bind (.addMember symbol) fun _ => ?_
      refine .blockBody hbody fun body body' hbody => ?_
      refine .within (.bind hbody fun _ => .bind (.leaveScope false) fun _ => .frameExit) ?_
      exact fun d d' hd => .emitSubroutine hd _ _ hloc.line
    cases isMethod with
    | false => exact hrest
    | true => exact .bind (.define _ _) fun isNew => .bind (.require _ hloc _) fun _ => hrest

section

variable {params : List Expr} {cs cs' : List ExprCode} {c c' : NodeCode}

theorem closureBody (h : T.NodeParallel b n m c c') :
    T.Parallel n m (Emit.closureBody T.left c) (Emit.closureBody T.right c') := by
  cases h with
  | stmt h => exact .bind h.run fun _ => .frameExit
  | expr h => exact .bind h.value fun _ => .handOff _

theorem closure (hloc : T.Near loc loc') (isMethod : Bool) (hparams : T.ExprsParallel params n m cs cs')
    (hbody : T.NodeParallel b n k c c') :
    T.Parallel n m (Emit.closure T.left loc cs c isMethod)
      (Emit.closure T.right loc' cs' c' isMethod) := by
  refine .newChild true fun child => .draft (.parameters hparams) fun child => ?_
  refine .within (.bind (.closureBody hbody) fun _ => .leaveScope false) fun d d' hd => ?_
  have hcaptured : d'.captured = d.captured := by
    obtain ⟨code, rfl, -⟩ := hd
    rfl
  rw [hcaptured]
  exact .bind (.forM _ fun symbol => .readName _ hloc) fun _ => .emitSubroutine hd _ _ hloc.line

end

theorem functionValue {c c' : RoutineCode} (hloc : T.Near loc loc')
    (h : T.RoutineParallel r n m c c') :
    T.Parallel n m (Emit.functionValue T.left loc c) (Emit.functionValue T.right loc' c') := by
  unfold Emit.functionValue
  rw [h.isNamed]
  obtain ⟨k, hbody⟩ := h.body
  exact .ite (.subroutine hloc false h) (.closure hloc false h.params hbody)

theorem awaitedTask {e : Expr} {c c' : ExprCode} (hexpr : c.expr = T.first e)
    (hexpr' : c'.expr = T.second e)
    (hcall : (∃ loc callee arguments, e = .call loc callee arguments) →
      n = m ∧ ∃ k, T.ExprParallel e n k c c')
    (hother : (∀ loc callee arguments, e ≠ .call loc callee arguments) → T.ExprParallel e n m c c') :
    T.Parallel n m (Emit.awaitedTask T.left c) (Emit.awaitedTask T.right c') := by
  unfold Emit.awaitedTask
  rw [hexpr, hexpr']
  cases e with
  | call loc callee arguments =>
    obtain ⟨rfl, k, h⟩ := hcall ⟨_, _, _, rfl⟩
    exact .closure h.near false .nil (.expr h)
  | _ => exact (hother fun _ _ _ h => nomatch h).value

theorem await {c c' : ExprCode} (hloc : T.Near loc loc')
    (h : T.Parallel n m (Emit.awaitedTask T.left c) (Emit.awaitedTask T.right c')) :
    T.Parallel n m (Emit.await T.left loc c) (Emit.await T.right loc' c') := by
  refine .bind (.member _ _ hloc) fun _ => .bind h fun _ => .bind (.emit _ hloc.line) fun _ => ?_
  refine .bind (.temporary _) fun task => .bind (.pushName _ _ hloc) fun _ => ?_
  refine .bind (.emit _ hloc.line) fun _ => .bind (.member _ _ hloc) fun _ => ?_
  exact .bind (.readTemporary _ hloc.line) fun _ => .bind (.emit _ hloc.line) fun _ => .warn _

theorem yield : T.Both n Emit.yield := fun hloc =>
  .bind (.emit _ hloc.line) fun _ => .handOff _

end Terms.Parallel

end Adhoc
