import Adhoc.Proofs.ParallelStmt
import Adhoc.Proofs.SourceNames

namespace Adhoc

open List NamesAll Expr

/-- The two sides agree on what is followed and on what stands for an include, wherever the name of
the source is allowed. -/
structure Terms.Aligned (T : Terms) (S : Setting) (allowed : String → String → Prop) : Prop where
  follow : ∀ body n, ∃ m, T.Parallel n m (S.follow body) (S.follow' body)
  hole : ∀ loc path n, allowed path n → T.Parallel n n
    (runAll (stmtCodes (T.context S) (T.fill loc path)))
    (runAll (stmtCodes (T.context' S) (stmtsMoved T.move (T.fill' loc path))))

section

variable (T : Terms) (S : Setting) (allowed : String → String → Prop)

abbrev Terms.ExprCodes (e : Expr) (n m : String) : Prop :=
  T.ExprParallel e n m ((T.first e).code (T.context S)) ((T.second e).code (T.context' S))

abbrev Terms.StmtCodes (s : Stmt) (n m : String) : Prop :=
  T.StmtParallel s n m ((s.filled T.fill).code (T.context S))
    (((s.filled T.fill').moved T.move).code (T.context' S))

/-- The codes of the expression are parallel under every name of the source. -/
abbrev Expr.CodesParallel (e : Expr) : Prop :=
  ∀ {n m}, Part.Names T.left allowed (.expr e) n m → T.ExprCodes S e n m

structure Expr.IsParallel (e : Expr) : Prop where
  codes : ∀ {n m}, Part.Names T.left allowed (.expr e) n m → T.ExprCodes S e n m
  returned : ∀ {n m}, NamesAll T.left allowed e.returnedParts n m → T.Parallel n m
    ((T.first e).code (T.context S)).returned ((T.second e).code (T.context' S)).returned

def Stmt.IsParallel (s : Stmt) : Prop :=
  ∀ {n m}, Part.Names T.left allowed (.stmt s) n m → T.StmtCodes S s n m

end

variable {T : Terms} {S : Setting} {allowed : String → String → Prop} {n k m : String}
  {es : List Expr} {ss : List Stmt} {d : ClassDef}

theorem exprs_parallel (h : ∀ e ∈ es, e.IsParallel T S allowed)
    (hn : NamesAll T.left allowed (es.map .expr) n m) :
    T.ExprsParallel es n m (exprCodes (T.context S) (exprsFilled T.fill es))
      (exprCodes (T.context' S) (exprsMoved T.move (exprsFilled T.fill' es))) := by
  induction es generalizing n with
  | nil =>
    obtain rfl := nil_iff.1 hn
    exact .nil
  | cons e es ih =>
    rw [forall_mem_cons] at h
    obtain ⟨k, he, hes⟩ := cons_iff.1 hn
    exact .cons (h.1.codes he) (ih h.2 hes)

theorem take_exprsFilled (fill : Loc → String → List Stmt) (n : Nat) (es : List Expr) :
    (exprsFilled fill es).take n = exprsFilled fill (es.take n) := by
  induction n generalizing es with
  | zero => rfl
  | succ n ih =>
    cases es with
    | nil => rfl
    | cons e es => rw [exprsFilled, take_succ_cons, ih, take_succ_cons, exprsFilled]

theorem take_exprsMoved (move : Loc → Loc) (n : Nat) (es : List Expr) :
    (exprsMoved move es).take n = exprsMoved move (es.take n) := by
  induction n generalizing es with
  | zero => rfl
  | succ n ih =>
    cases es with
    | nil => rfl
    | cons e es => rw [exprsMoved, take_succ_cons, ih, take_succ_cons, exprsMoved]

theorem holes_parallel {es : List (Option Expr)} (h : ∀ e, some e ∈ es → e.IsParallel T S allowed)
    (hn : NamesAll T.left allowed ((es.filterMap id).map .expr) n m) :
    Terms.Chain (Terms.Perhaps T.ExprParallel) es n m (holeCodes (T.context S) (holesFilled T.fill es))
      (holeCodes (T.context' S) (holesMoved T.move (holesFilled T.fill' es))) := by
  induction es generalizing n with
  | nil =>
    obtain rfl := nil_iff.1 hn
    exact .nil
  | cons o es ih =>
    have hes : ∀ e, some e ∈ es → e.IsParallel T S allowed :=
      fun e he => h e (mem_cons_of_mem _ he)
    cases o with
    | none => exact .cons .none (ih hes hn)
    | some e =>
      obtain ⟨k, he, hrest⟩ := cons_iff.1 hn
      exact .cons (.some ((h e mem_cons_self).codes he)) (ih hes hrest)

theorem pairs_parallel {es : List (Expr × Expr)}
    (h : ∀ p ∈ es, p.1.IsParallel T S allowed ∧ p.2.IsParallel T S allowed)
    (hn : NamesAll T.left allowed (es.flatMap fun (key, value) => [.expr key, .expr value]) n m) :
    Terms.Chain T.PairParallel es n m (pairCodes (T.context S) (pairsFilled T.fill es))
      (pairCodes (T.context' S) (pairsMoved T.move (pairsFilled T.fill' es))) := by
  induction es generalizing n with
  | nil =>
    obtain rfl := nil_iff.1 hn
    exact .nil
  | cons p es ih =>
    obtain ⟨key, value⟩ := p
    rw [forall_mem_cons] at h
    rw [flatMap_cons, append_iff] at hn
    obtain ⟨k, hp, hes⟩ := hn
    obtain ⟨j, hkey, hvalue⟩ := pair_iff.1 hp
    exact .cons ⟨j, h.1.1.codes hkey, h.1.2.codes hvalue⟩ (ih h.2 hes)

theorem runAll_append (cx : Context) (ss ss' : List Stmt) :
    runAll (stmtCodes cx (ss ++ ss')) = (do
      runAll (stmtCodes cx ss)
      runAll (stmtCodes cx ss')) := by
  rw [stmtCodes_eq, map_append, ← stmtCodes_eq, ← stmtCodes_eq]
  exact forM_append

theorem stmts_parallel (hT : T.Aligned S allowed) (h : ∀ s ∈ ss, s.IsParallel T S allowed)
    (hn : NamesAll T.left allowed (ss.map .stmt) n m) :
    T.Parallel n m (runAll (stmtCodes (T.context S) (stmtsFilled T.fill ss)))
      (runAll (stmtCodes (T.context' S) (stmtsMoved T.move (stmtsFilled T.fill' ss)))) := by
  induction ss generalizing n with
  | nil =>
    obtain rfl := nil_iff.1 hn
    exact .pure ()
  | cons s ss ih =>
    rw [forall_mem_cons] at h
    obtain ⟨k, hs, hss⟩ := cons_iff.1 hn
    rw [stmtsFilled, stmtsFilled, stmtsMoved_append, runAll_append, runAll_append]
    refine .bind ?_ fun _ => ih h.2 hss
    cases hi : s.include? with
    | some i =>
      obtain ⟨loc, path⟩ := i
      obtain rfl := Stmt.include?_eq_some.1 hi
      obtain ⟨rfl, hallowed⟩ := hs.allowed_of_include
      exact hT.hole loc path n hallowed
    | none => exact .bind (h.1 hs).run fun _ => .pure ()

theorem hole_parallel {o : Option Expr} (h : ∀ e ∈ o, e.IsParallel T S allowed)
    (hn : NamesAll T.left allowed (o.toList.map .expr) n m) :
    Terms.Perhaps T.ExprParallel o n m (holeCode (T.context S) (holeFilled T.fill o))
      (holeCode (T.context' S) (holeMoved T.move (holeFilled T.fill' o))) := by
  cases o with
  | none =>
    obtain rfl := nil_iff.1 hn
    exact .none
  | some e => exact .some ((h e rfl).codes (singleton_iff.1 hn))

theorem stmtHole_parallel {o : Option Stmt} (h : ∀ s ∈ o, s.IsParallel T S allowed)
    (hn : NamesAll T.left allowed (o.toList.map .stmt) n m) :
    Terms.Perhaps T.StmtParallel o n m (stmtHoleCode (T.context S) (stmtHoleFilled T.fill o))
      (stmtHoleCode (T.context' S) (stmtHoleMoved T.move (stmtHoleFilled T.fill' o))) := by
  cases o with
  | none =>
    obtain rfl := nil_iff.1 hn
    exact .none
  | some s => exact .some (h s rfl (singleton_iff.1 hn))

theorem node_parallel {x : Node}
    (h : x.Holds (Expr.IsParallel T S allowed) (Stmt.IsParallel T S allowed))
    (hn : x.part.Names T.left allowed n m) :
    T.NodeParallel x n m ((x.filled T.fill).code (T.context S))
      (((x.filled T.fill').moved T.move).code (T.context' S)) := by
  cases x with
  | stmt s => exact .stmt (h hn)
  | expr e => exact .expr (h.codes hn)

theorem nodeHole_parallel {o : Option Node}
    (h : ∀ x ∈ o, x.Holds (Expr.IsParallel T S allowed) (Stmt.IsParallel T S allowed))
    (hn : NamesAll T.left allowed (o.toList.map Node.part) n m) :
    Terms.Perhaps T.NodeParallel o n m (nodeHoleCode (T.context S) (nodeHoleFilled T.fill o))
      (nodeHoleCode (T.context' S) (nodeHoleMoved T.move (nodeHoleFilled T.fill' o))) := by
  cases o with
  | none =>
    obtain rfl := nil_iff.1 hn
    exact .none
  | some x => exact .some (node_parallel (h x rfl) (singleton_iff.1 hn))

theorem clauseHole_parallel {o : Option CatchClause} (h : ∀ c ∈ o, c.body.IsParallel T S allowed)
    (hn : NamesAll T.left allowed (o.toList.map fun c => .stmt c.body) n m) :
    Terms.Perhaps T.ClauseParallel o n m (clauseHoleCode (T.context S) (clauseHoleFilled T.fill o))
      (clauseHoleCode (T.context' S) (clauseHoleMoved T.move (clauseHoleFilled T.fill' o))) := by
  cases o with
  | none =>
    obtain rfl := nil_iff.1 hn
    exact .none
  | some c =>
    obtain ⟨loc, param, body⟩ := c
    simp only [clauseHoleFilled, clauseHoleMoved, clauseHoleCode, CatchClause.filled, CatchClause.moved,
      CatchClause.code]
    exact .some ⟨T.near_move loc, rfl, h _ rfl (singleton_iff.1 hn)⟩

theorem routine_parallel {r : Routine} (hparams : ∀ e ∈ r.params, e.IsParallel T S allowed)
    (hbody : r.body.Holds (Expr.IsParallel T S allowed) (Stmt.IsParallel T S allowed))
    (hn : NamesAll T.left allowed (r.params.map .expr) n m)
    (hb : ∃ k, r.body.part.Names T.left allowed n k) :
    T.RoutineParallel r n m ((r.filled T.fill).code (T.context S))
      (((r.filled T.fill').moved T.move).code (T.context' S)) := by
  obtain ⟨id, params, body⟩ := r
  obtain ⟨k, hk⟩ := hb
  have hname : id.bind Expr.ident? = (holeMoved T.move id).bind Expr.ident? := by
    cases id with
    | none => rfl
    | some e => exact e.ident?_moved.symm
  have hnamed : id.isSome = (holeMoved T.move id).isSome := by cases id <;> rfl
  exact ⟨hname, hnamed, exprs_parallel hparams hn, k, node_parallel hbody hk⟩

theorem class_parallel (hT : T.Aligned S allowed) (h : ∀ s ∈ d.body, s.IsParallel T S allowed)
    (hn : NamesAll T.left allowed (d.body.map .stmt) n m) :
    T.ClassParallel n m ((d.filled T.fill).code (T.context S))
      (((d.filled T.fill').moved T.move).code (T.context' S)) := by
  obtain ⟨id, superClass, body, isModule⟩ := d
  simp only [ClassDef.filled, ClassDef.moved, ClassDef.code]
  exact ⟨rfl, rfl, rfl, stmts_parallel hT h hn⟩

section

variable {loc : Loc} {e left right : Expr} {op : AssignOp}

theorem ident_parallel (name : String) : T.ExprCodes S (.ident loc name) n n := by
  have hloc := T.near_first (.ident loc name)
  have hline : name = "__LINE__" → loc = if name = "__LINE__" then loc else T.move loc :=
    fun hname => (if_pos hname).symm
  exact { Terms.ExprParallel.ofValue (.ident loc name) (.identifier hloc hline) with
    place := .pushName name false hloc
    stored := .pushName name false hloc
    asStatic := fun houter => .staticName houter name hloc
    asAttribute := fun _ => .attributeName name hloc
    element := fun declares _ => .bind (.pushName name declares hloc) fun _ => .pure _
    param := .nameParameter hloc name }

theorem call_parallel (h : left.IsParallel T S allowed) (hs : ∀ e ∈ es, e.IsParallel T S allowed) :
    (Expr.call loc left es).CodesParallel T S allowed := by
  intro n m hn
  obtain ⟨k, hleft, hargs⟩ := cons_iff.1 (hn.all rfl)
  have hvalue := Terms.Parallel.call (T.near_move loc) (h.codes hleft)
      (exprs_parallel hs hargs) fun hname => by
    cases left <;> cases hname
    exact hleft.same rfl rfl
  exact { Terms.ExprParallel.ofValue (.call loc left es) hvalue with place := hvalue }

theorem unary_parallel (op : UnaryOp) (h : e.IsParallel T S allowed) :
    (Expr.unary loc op e).CodesParallel T S allowed := by
  intro n m hn
  have he := h.codes (hn.only rfl rfl)
  have hwhole := Terms.ExprParallel.ofValue (.unary loc op e) (.unary (T.near_move loc) op he)
  cases op with
  | refer => exact { hwhole with referred := he.place, stored := .storedThrough he }
  | follow => exact { hwhole with stored := .storedThrough he }
  | _ => exact hwhole

theorem update_parallel (op : UpdateOp) (before : Bool) (h : e.IsParallel T S allowed) :
    (Expr.update loc op before e).CodesParallel T S allowed := by
  intro n m hn
  have he := h.codes (hn.only rfl rfl)
  have hloc := T.near_move loc
  have hvalue := Terms.Parallel.bind he.place fun _ => .updateOperator op before hloc
  exact { Terms.ExprParallel.ofValue (.update loc op before e) hvalue with
    underRefer := .bind he.value fun _ => .updateOperator op before hloc }

theorem binary_parallel (op : BinaryOp) (hl : left.IsParallel T S allowed)
    (hr : right.IsParallel T S allowed) :
    (Expr.binary loc op left right).CodesParallel T S allowed := by
  intro n m hn
  obtain ⟨k, hleft, hright⟩ := hn.both rfl rfl
  have hvalue := Terms.Parallel.binary (T.near_move loc) (hl.codes hleft) (hr.codes hright) op
  exact { Terms.ExprParallel.ofValue (.binary loc op left right) hvalue with place := hvalue }

theorem literal_parallel (value : Literal) : T.ExprCodes S (.literal loc value) n n :=
  { Terms.ExprParallel.ofValue (.literal loc value) (.literal value (T.near_move loc)) with
    place := .literal value (T.near_move loc) }

theorem element_parallel (optional : Bool) (hl : left.IsParallel T S allowed)
    (hr : right.IsParallel T S allowed) :
    (Expr.element loc left right optional).CodesParallel T S allowed := by
  intro n m hn
  obtain ⟨k, hleft, hright⟩ := hn.both rfl rfl
  have hloc := T.near_move loc
  have hplace := Terms.Parallel.elementMember hloc (hl.codes hleft) (hr.codes hright) .push
  have hvalue := Terms.Parallel.ite (c := optional = true)
    (Terms.Parallel.optionalElement hloc (hl.codes hleft) (hr.codes hright))
    (.elementMember hloc (hl.codes hleft) (hr.codes hright) .eval)
  exact { Terms.ExprParallel.ofValue (.element loc left right optional) hvalue with
    place := hplace, stored := hplace }

theorem path_parallel : T.ExprCodes S (.path loc left right) n n := by
  have hparts := pathParts_moved T.move (.path loc left right)
  have hmember (reach : Reach) : T.Parallel n n
      (Emit.member T.left reach (Expr.path loc left right).pathParts loc)
      (Emit.member T.right reach (Expr.moved T.move (.path loc left right)).pathParts (T.move loc)) := by
    rw [hparts]
    exact .member reach _ (T.near_move loc)
  exact { Terms.ExprParallel.ofValue (.path loc left right) (hmember .eval) with
    place := hmember .push
    stored := hmember .push }

theorem attribute_parallel (optional : Bool) (h : left.IsParallel T S allowed) :
    (Expr.attribute loc left right optional).CodesParallel T S allowed := by
  intro n m hn
  have hl := h.codes (hn.only rfl rfl)
  have hplace := Terms.Parallel.pushAttribute right hl
  exact { Terms.ExprParallel.ofValue (.attribute loc left right optional)
      (.attributeMember (T.near_move loc) right optional hl) with
    place := hplace
    stored := hplace
    element := fun _ _ => .bind hplace fun _ => .pure _ }

theorem selector_parallel (hl : left.IsParallel T S allowed) (hr : right.IsParallel T S allowed) :
    (Expr.selector loc left right).CodesParallel T S allowed := by
  intro n m hn
  obtain ⟨k, hleft, hright⟩ := hn.both rfl rfl
  have hvalue := Terms.Parallel.selector (T.near_move loc) (hl.codes hleft) (hr.codes hright)
  exact { Terms.ExprParallel.ofValue (.selector loc left right) hvalue with
    place := .reject (T.near_move loc) _
    stored := hvalue }

theorem assign_names (hn : Part.Names T.left allowed (.expr (.assign loc op left right)) n m) :
    ((op == .assign && T.left.has .valueBeforePush) = true → ∃ k,
      Part.Names T.left allowed (.expr right) n k ∧ Part.Names T.left allowed (.expr left) k m) ∧
    ((op == .assign && T.left.has .valueBeforePush) = false → ∃ k,
      Part.Names T.left allowed (.expr left) n k ∧ Part.Names T.left allowed (.expr right) k m) := by
  have hall : NamesAll T.left allowed (if op == .assign && T.left.has .valueBeforePush then
    [.expr right, .expr left] else [.expr left, .expr right]) n m := hn.all rfl
  constructor
  · intro h
    rw [if_pos h] at hall
    exact pair_iff.1 hall
  · intro h
    rw [if_neg (by rw [h]; exact Bool.false_ne_true)] at hall
    exact pair_iff.1 hall

theorem assign_names_of_name (hname : left.ident?.isSome = true)
    (hn : Part.Names T.left allowed (.expr (.assign loc op left right)) n m) :
    Part.Names T.left allowed (.expr right) n m := by
  have hleft : ∀ {n k}, Part.Names T.left allowed (.expr left) n k → n = k := by
    intro n k h
    cases left <;> cases hname
    exact h.same rfl rfl
  obtain ⟨hvalue, hpush⟩ := assign_names hn
  cases horder : op == .assign && T.left.has .valueBeforePush with
  | true =>
    obtain ⟨k, hr, hl⟩ := hvalue horder
    exact hleft hl ▸ hr
  | false =>
    obtain ⟨k, hl, hr⟩ := hpush horder
    exact hleft hl ▸ hr

theorem name?_code_first (e : Expr) (cx : Context) : ((T.first e).code cx).name? = e.ident? := by
  rw [ExprCode.name?, expr_code, e.ident?_filled]

theorem name?_code_second (e : Expr) (cx : Context) : ((T.second e).code cx).name? = e.ident? := by
  rw [ExprCode.name?, expr_code, Expr.ident?_moved, e.ident?_filled]

theorem near_code (e : Expr) (cx cx' : Context) :
    T.Near ((T.first e).code cx).loc ((T.second e).code cx').loc := by
  rw [ExprCode.loc, ExprCode.loc, expr_code, expr_code]
  exact T.near_first e

theorem assign_parallel (op : AssignOp) (hl : left.IsParallel T S allowed)
    (hr : right.IsParallel T S allowed) :
    (Expr.assign loc op left right).CodesParallel T S allowed := by
  intro n m hn
  obtain ⟨hvalue, hpush⟩ := assign_names hn
  have hloc := T.near_move loc
  have hassign (drops : Bool) := Terms.Parallel.assignment hloc op drops
    (fun h => (hvalue h).imp fun _ hk => ⟨hr.codes hk.1, hl.codes hk.2⟩)
    fun h => (hpush h).imp fun _ hk => ⟨hl.codes hk.1, hr.codes hk.2⟩
  -- Where only a name can stand on the left, nothing but the value is lowered.
  have hname : ((T.first left).code (T.context S)).name? =
      ((T.second left).code (T.context' S)).name? := by
    rw [name?_code_first, name?_code_second]
  have hnear : T.Near ((T.first left).code (T.context S)).loc
      ((T.second left).code (T.context' S)).loc := near_code left _ _
  have hright : ((T.first left).code (T.context S)).name?.isSome = true →
      T.ExprCodes S right n m := by
    rw [name?_code_first]
    exact fun h => hr.codes (assign_names_of_name h hn)
  have hleft : ((T.first left).code (T.context S)).name?.isSome = true →
      T.ExprCodes S left m m := by
    rw [name?_code_first]
    intro h
    cases left <;> cases h
    exact ident_parallel _
  exact { Terms.ExprParallel.ofValue (.assign loc op left right) (hassign true) with
    kept := hassign false
    asStatic := fun houter =>
      .staticAssignment houter hloc op hname hnear fun h => ⟨hleft h, hright h⟩
    asAttribute := fun houter => .attributeAssignment houter hname hnear hright
    param := .assignedParameter hloc hname ⟨expr_code _ _, expr_code _ _⟩ hright }

theorem assignPattern_parallel (h : right.IsParallel T S allowed) :
    (Expr.assignPattern loc left right).CodesParallel T S allowed := by
  intro n m hn
  have hr := h.codes (hn.only rfl rfl)
  exact { Terms.ExprParallel.ofNothing (.assignPattern loc left right) with
    param := .patternParameter (T.near_move loc) (by rw [name?_code_first, name?_code_second])
      (near_code left _ _) hr }

theorem arrayPattern_parallel (h : ∀ e ∈ es, e.IsParallel T S allowed) :
    (Expr.arrayPattern loc es).CodesParallel T S allowed := fun hn =>
  { Terms.ExprParallel.ofNothing (.arrayPattern loc es) with
    pattern := .some fun declares =>
      .arrayPattern (T.near_move loc) declares (exprs_parallel h (hn.all rfl)) }

theorem rest_parallel : T.ExprCodes S (.rest loc e) n n :=
  { Terms.ExprParallel.ofNothing (.rest loc e) with
    element := fun declares isLast => .restElement (T.near_move loc) e declares isLast
    param := .restParameter (T.near_move loc) e }

theorem template_parallel (quasis : List Quasi) (h : ∀ e ∈ es, e.IsParallel T S allowed) :
    (Expr.template loc quasis es).CodesParallel T S allowed := by
  intro n m hn
  have hcodes : T.ExprsParallel (es.take quasis.length) n m
      ((exprCodes (T.context S) (exprsFilled T.fill es)).take quasis.length)
      ((exprCodes (T.context' S) (exprsMoved T.move (exprsFilled T.fill' es))).take
        quasis.length) := by
    rw [take_exprCodes, take_exprCodes, take_exprsMoved, take_exprsFilled, take_exprsFilled]
    exact exprs_parallel (fun e he => h e (mem_of_mem_take he)) (hn.all rfl)
  exact { Terms.ExprParallel.ofValue (.template loc quasis es)
      (.template quasis hcodes (T.near_move loc)) with
    part := .templateParts quasis hcodes }

theorem tagged_parallel (h : ∀ e ∈ es, e.IsParallel T S allowed) :
    (Expr.tagged loc es).CodesParallel T S allowed := by
  intro n m hn
  have hcodes := exprs_parallel h (hn.all rfl)
  exact { Terms.ExprParallel.ofValue (.tagged loc es) (.tagged (T.near_move loc) hcodes) with
    part := .taggedParts hcodes }

theorem sequence_parallel (h : ∀ e ∈ es, e.IsParallel T S allowed) :
    (Expr.sequence loc es).CodesParallel T S allowed := fun hn =>
  { Terms.ExprParallel.ofNothing (.sequence loc es) with
    steps := (exprs_parallel h (hn.all rfl)).forM fun h => h.step }

theorem classDef_parallel (hT : T.Aligned S allowed) (h : ∀ s ∈ d.body, s.IsParallel T S allowed) :
    (Expr.classDef loc d).CodesParallel T S allowed := by
  intro n m hn
  have hclass := class_parallel hT h (hn.all rfl)
  exact { Terms.ExprParallel.ofValue (.classDef loc d) (.classDef (T.near_move loc) hclass false) with
    asStatic := fun _ => .staticClass (T.near_move loc) hclass }

theorem await_parallel (h : e.IsParallel T S allowed) :
    (Expr.await loc e).CodesParallel T S allowed := by
  intro n m hn
  refine .ofValue (.await loc e) (.await (T.near_move loc) (.awaitedTask (e := e) (expr_code _ _)
    (expr_code _ _) ?_ fun hcall => ?_))
  · rintro ⟨callLoc, callee, arguments, rfl⟩
    obtain ⟨k, hk⟩ := hn.body rfl
    exact ⟨hn.same rfl rfl, k, h.codes hk⟩
  · refine h.codes ?_
    cases e with
    | call callLoc callee arguments => exact absurd rfl (hcall callLoc callee arguments)
    | _ => exact hn.only rfl rfl

end

theorem Expr.codes_parallel (hT : T.Aligned S allowed) (e : Expr)
    (h : e.Parts (Expr.IsParallel T S allowed) (Stmt.IsParallel T S allowed))
    (hn : Part.Names T.left allowed (.expr e) n m) : T.ExprCodes S e n m := by
  cases e with
  | ident loc name =>
    obtain rfl := hn.same rfl rfl
    exact ident_parallel name
  | function loc r =>
    exact .ofValue _ (.functionValue (T.near_move loc)
      (routine_parallel h.1 h.2 (hn.all rfl) (hn.body rfl)))
  | method loc r =>
    have hr := routine_parallel h.1 h.2 (hn.all rfl) (hn.body rfl)
    obtain ⟨k, hbody⟩ := hr.body
    exact .ofValue _ (.closure (T.near_move loc) true hr.params hbody)
  | arrow loc r =>
    have hr := routine_parallel h.1 h.2 (hn.all rfl) (hn.body rfl)
    obtain ⟨k, hbody⟩ := hr.body
    exact .ofValue _ (.closure (T.near_move loc) false hr.params hbody)
  | call loc callee arguments => exact call_parallel h.1 h.2 hn
  | unary loc op argument => exact unary_parallel op h hn
  | update loc op before argument => exact update_parallel op before h hn
  | binary loc op left right => exact binary_parallel op h.1 h.2 hn
  | logical loc op left right =>
    obtain ⟨k, hleft, hright⟩ := hn.both rfl rfl
    exact .ofValue _ (.logical (T.near_move loc) (h.1.codes hleft) (h.2.codes hright) op)
  | literal loc value =>
    obtain rfl := hn.same rfl rfl
    exact literal_parallel value
  | array loc elements =>
    exact .ofValue _ (.array (T.near_move loc) (holes_parallel h (hn.all rfl)))
  | map loc entries =>
    exact .ofValue _ (.map (T.near_move loc) (pairs_parallel h (hn.all rfl)))
  | element loc object property optional => exact element_parallel optional h.1 h.2 hn
  | path loc object property =>
    obtain rfl := hn.same rfl rfl
    exact path_parallel
  | «attribute» loc object property optional => exact attribute_parallel optional h.1 hn
  | selector loc object property => exact selector_parallel h.1 h.2 hn
  | assign loc op left right => exact assign_parallel op h.1 h.2 hn
  | assignPattern loc left right => exact assignPattern_parallel h.2 hn
  | arrayPattern loc elements => exact arrayPattern_parallel h hn
  | rest loc argument =>
    obtain rfl := hn.same rfl rfl
    exact rest_parallel
  | conditional loc test consequent alternate =>
    obtain ⟨j, htest, hbranches⟩ := cons_iff.1 (hn.all rfl)
    obtain ⟨k, hconsequent, halternate⟩ := pair_iff.1 hbranches
    exact .ofValue _ (.conditional (h.1.codes htest) (h.2.1.codes hconsequent) (h.2.2.codes halternate))
  | template loc quasis expressions => exact template_parallel quasis h hn
  | tagged loc parts => exact tagged_parallel h hn
  | sequence loc expressions => exact sequence_parallel h hn
  | staticDecl loc declaration =>
    exact .ofValue _ ((h.codes (hn.only rfl rfl)).asStatic (T.near_move loc))
  | attributeDecl loc declaration =>
    exact .ofValue _ ((h.codes (hn.only rfl rfl)).asAttribute (T.near_move loc))
  | classDef loc definition => exact classDef_parallel hT h hn
  | importName loc specifiers target asName =>
    obtain rfl := hn.same rfl rfl
    exact .ofValue _ (.importName (T.near_move loc) _ _ _)
  | yield loc =>
    obtain rfl := hn.same rfl rfl
    exact .ofValue _ (.yield (T.near_move loc))
  | await loc argument => exact await_parallel h hn
  | spread loc argument =>
    exact .ofValue _ (h.codes (hn.only rfl rfl)).value
  | selfRef loc =>
    obtain rfl := hn.same rfl rfl
    exact .ofValue _ (.selfValue (T.near_move loc))

theorem Expr.parallel (hT : T.Aligned S allowed) (e : Expr)
    (h : e.Parts (Expr.IsParallel T S allowed) (Stmt.IsParallel T S allowed)) :
    e.IsParallel T S allowed := by
  refine ⟨e.codes_parallel hT h, fun {n m} hn => ?_⟩
  -- What is no assignment is returned by its value.
  have hvalue (hsame : ((T.first e).code (T.context S)).returned = ((T.first e).code (T.context S)).value ∧
        ((T.second e).code (T.context' S)).returned = ((T.second e).code (T.context' S)).value)
      (hn : NamesAll T.left allowed [.expr e] n m) : T.Parallel n m
        ((T.first e).code (T.context S)).returned ((T.second e).code (T.context' S)).returned := by
    rw [hsame.1, hsame.2]
    exact (e.codes_parallel hT h (singleton_iff.1 hn)).value
  cases e with
  | assign loc op left right =>
    obtain ⟨k, hassign, hleft⟩ := pair_iff.1 hn
    exact .bind (assign_parallel op h.1 h.2 hassign).value fun _ => (h.1.codes hleft).value
  | unary loc op argument => exact hvalue (by cases op <;> exact ⟨rfl, rfl⟩) hn
  | _ => exact hvalue ⟨rfl, rfl⟩ hn

theorem declarator_parallel {d : Declarator}
    (h : (∀ e ∈ d.id, e.IsParallel T S allowed) ∧ ∀ e ∈ d.init, e.IsParallel T S allowed)
    (hn : NamesAll T.left allowed (d.parts T.left) n m) :
    T.DeclaratorParallel d n m ((d.filled T.fill).code (T.context S))
      (((d.filled T.fill').moved T.move).code (T.context' S)) := by
  obtain ⟨loc, id, init⟩ := d
  have hid : ∀ {n m}, NamesAll T.left allowed (id.toList.map .expr) n m →
      Terms.Perhaps T.TargetParallel id n m (holeCode (T.context S) (holeFilled T.fill id))
        (holeCode (T.context' S) (holeMoved T.move (holeFilled T.fill' id))) := by
    intro n m hn
    cases id with
    | none =>
      obtain rfl := nil_iff.1 hn
      exact .none
    | some e =>
      have he := singleton_iff.1 hn
      refine .some ⟨(h.1 e rfl).codes he, fun hname => ?_⟩
      cases e <;> cases hname
      exact he.same rfl rfl
  simp only [Declarator.filled, Declarator.moved, Declarator.code]
  refine ⟨T.near_move loc, fun hv => ?_, fun hv => ?_⟩
  · rw [Declarator.parts, if_pos hv, append_iff] at hn
    obtain ⟨k, hinit, hname⟩ := hn
    exact ⟨k, hole_parallel h.2 hinit, hid hname⟩
  · rw [Declarator.parts, if_neg (by rw [hv]; exact Bool.false_ne_true), append_iff] at hn
    obtain ⟨k, hname, hinit⟩ := hn
    exact ⟨k, hid hname, hole_parallel h.2 hinit⟩

theorem declarators_parallel {ds : List Declarator}
    (h : ∀ d ∈ ds, (∀ e ∈ d.id, e.IsParallel T S allowed) ∧ ∀ e ∈ d.init, e.IsParallel T S allowed)
    (hn : NamesAll T.left allowed (ds.flatMap (Declarator.parts T.left)) n m) :
    Terms.Chain T.DeclaratorParallel ds n m
      (declaratorCodes (T.context S) (declaratorsFilled T.fill ds))
      (declaratorCodes (T.context' S) (declaratorsMoved T.move (declaratorsFilled T.fill' ds))) := by
  induction ds generalizing n with
  | nil =>
    obtain rfl := nil_iff.1 hn
    exact .nil
  | cons d ds ih =>
    rw [forall_mem_cons] at h
    rw [flatMap_cons, append_iff] at hn
    obtain ⟨k, hd, hds⟩ := hn
    exact .cons (declarator_parallel h.1 hd) (ih h.2 hds)

section

variable {xs : List SwitchCase}

theorem tests_parallel (h : ∀ x ∈ xs, ∀ e ∈ x.test, e.IsParallel T S allowed)
    (hn : NamesAll T.left allowed ((xs.filterMap (·.test)).map .expr) n m) :
    Terms.Chain T.TestParallel xs n m (caseCodes (T.context S) (casesFilled T.fill xs))
      (caseCodes (T.context' S) (casesMoved T.move (casesFilled T.fill' xs))) := by
  induction xs generalizing n with
  | nil =>
    obtain rfl := nil_iff.1 hn
    exact .nil
  | cons x xs ih =>
    obtain ⟨loc, test, consequent⟩ := x
    rw [forall_mem_cons] at h
    simp only [casesFilled, casesMoved, caseCodes, SwitchCase.filled, SwitchCase.moved, SwitchCase.code]
    cases test with
    | none => exact .cons ⟨T.near_move loc, .none⟩ (ih h.2 hn)
    | some e =>
      obtain ⟨k, he, hxs⟩ := cons_iff.1 hn
      exact .cons ⟨T.near_move loc, .some ((h.1 e rfl).codes he)⟩ (ih h.2 hxs)

theorem bodies_parallel (hT : T.Aligned S allowed)
    (h : ∀ x ∈ xs, ∀ s ∈ x.consequent, s.IsParallel T S allowed)
    (hn : NamesAll T.left allowed ((xs.flatMap (·.consequent)).map .stmt) n m) :
    Terms.Chain T.BodyParallel xs n m (caseCodes (T.context S) (casesFilled T.fill xs))
      (caseCodes (T.context' S) (casesMoved T.move (casesFilled T.fill' xs))) := by
  induction xs generalizing n with
  | nil =>
    obtain rfl := nil_iff.1 hn
    exact .nil
  | cons x xs ih =>
    obtain ⟨loc, test, consequent⟩ := x
    rw [forall_mem_cons] at h
    rw [flatMap_cons, map_append, append_iff] at hn
    obtain ⟨k, hx, hxs⟩ := hn
    simp only [casesFilled, casesMoved, caseCodes, SwitchCase.filled, SwitchCase.moved, SwitchCase.code]
    exact .cons (stmts_parallel hT h.1 hx) (ih h.2 hxs)

end

theorem Stmt.parallel (hT : T.Aligned S allowed) (s : Stmt)
    (h : s.Parts (Expr.IsParallel T S allowed) (Stmt.IsParallel T S allowed)) :
    s.IsParallel T S allowed := by
  intro n m hn
  cases s with
  | classDef loc d =>
    exact .ofRun _ (.classDef (T.near_move loc) (class_parallel hT h (hn.all rfl)) false)
  | function loc r =>
    obtain ⟨id, params, body⟩ := r
    refine .ofRun (.function loc ⟨id, params, body⟩) ?_
    cases id with
    | none =>
      obtain rfl := hn.same rfl rfl
      exact .pure ()
    | some id =>
      exact .subroutine (T.near_move loc) false (routine_parallel h.1 h.2 (hn.all rfl) (hn.body rfl))
  | method loc r =>
    exact .ofRun _
      (.subroutine (T.near_move loc) true (routine_parallel h.1 h.2 (hn.all rfl) (hn.body rfl)))
  | forLoop loc init test update body =>
    obtain ⟨k, hhead, hupdate⟩ := append_iff.1 (hn.all rfl)
    obtain ⟨j, hhead, hbody⟩ := append_iff.1 hhead
    obtain ⟨i, hinit, htest⟩ := append_iff.1 hhead
    exact .ofLoop _ fun label =>
      .forLoop (T.near_move loc) (nodeHole_parallel h.1 hinit) (hole_parallel h.2.1 htest)
        (h.2.2.2 (singleton_iff.1 hbody)) (hole_parallel h.2.2.1 hupdate) label
  | foreach loc left right body =>
    obtain ⟨j, hright, hrest⟩ := cons_iff.1 (hn.all rfl)
    obtain ⟨k, hleft, hbody⟩ := pair_iff.1 hrest
    exact .ofLoop _ fun label =>
      .foreach (T.near_move loc) (h.2.1.codes hright) (node_parallel h.1 hleft) (h.2.2 hbody) label
  | whileLoop loc test body =>
    obtain ⟨k, htest, hbody⟩ := hn.both rfl rfl
    refine .ofLoop _ fun label => .whileLoop (h.1.codes htest) (h.2 hbody) (fun htrue => ?_) label
    cases test with
    | literal => exact htest.same rfl rfl
    | _ => cases htrue
  | doWhile loc body test =>
    obtain ⟨k, hbody, htest⟩ := hn.both rfl rfl
    exact .ofLoop _ fun label => .doWhile (h.2 hbody) (h.1.codes htest) label
  | declare loc ds =>
    have hdeclare (fromStack : Bool) :=
      Terms.Parallel.declare fromStack (declarators_parallel h (hn.all rfl))
    exact { Terms.StmtParallel.ofRun (.declare loc ds) (hdeclare false) with
      declares := .some hdeclare }
  | returnValue loc argument =>
    refine .ofRun _ (.returnValue (e := argument) ?_)
    cases argument with
    | none =>
      obtain rfl := hn.same rfl rfl
      exact .none
    | some e =>
      have hall : NamesAll T.left allowed (e.returnedParts ++ []) n m := hn.all rfl
      rw [append_nil] at hall
      exact .some ((h e rfl).returned hall)
  | importName loc specifiers target asName =>
    obtain rfl := hn.same rfl rfl
    exact .ofRun _ (.importName (T.near_move loc) _ _ _)
  | ifElse loc test consequent alternate =>
    obtain ⟨j, htest, hrest⟩ := cons_iff.1 (hn.all rfl)
    obtain ⟨k, hconsequent, halternate⟩ := cons_iff.1 hrest
    exact .ofRun _ (.ifElse (h.1.codes htest)
      (h.2.1 hconsequent) (stmtHole_parallel h.2.2 halternate))
  | block loc body =>
    have hinside := Terms.Parallel.body S.logsExceptions (stmts_parallel hT h (hn.all rfl))
    have hempty : (stmtsFilled T.fill body).isEmpty =
        (stmtsMoved T.move (stmtsFilled T.fill' body)).isEmpty := by
      rw [isEmpty_stmtsMoved, isEmpty_stmtsFilled fun loc path => (T.fill_ne loc path).1,
        isEmpty_stmtsFilled fun loc path => (T.fill_ne loc path).2]
    have hrun := Terms.Parallel.block (stmtsMoved T.move (stmtsFilled T.fill' body)).isEmpty hinside
    exact { Terms.StmtParallel.ofRun (.block loc body) (hempty ▸ hrun) with
      block := .some hinside }
  | expression loc e =>
    exact .ofRun _ (.expressionStatement (h.codes (hn.only rfl rfl)))
  | switch loc discriminant cases =>
    obtain ⟨k, hhead, hbodies⟩ := append_iff.1 (hn.all rfl)
    obtain ⟨j, hsubject, htests⟩ := cons_iff.1 hhead
    exact .ofRun _ (.switch (T.near_move loc) (h.1.codes hsubject)
      (tests_parallel (fun x hx => (h.2 x hx).1) htests)
      (bodies_parallel hT (fun x hx => (h.2 x hx).2) hbodies))
  | continueLoop loc label =>
    obtain rfl := hn.same rfl rfl
    exact .ofRun _ (.continueLoop label (T.near_move loc))
  | breakOut loc label =>
    obtain rfl := hn.same rfl rfl
    exact .ofRun _ (.breakOut label (T.near_move loc))
  | labeled loc label body =>
    exact .ofRun _ (.labeled (T.near_move loc) label (h (hn.only rfl rfl)))
  | includeFile loc path =>
    obtain ⟨rfl, -⟩ := hn.allowed_of_include
    exact .ofRun _ (.includeFile hT.follow (T.near_move loc) path)
  | require loc e | throw loc e =>
    exact .ofRun _ (.bind (h.codes (hn.only rfl rfl)).value fun _ => .emit _ (T.near_move loc).line)
  | finalizer loc e =>
    exact .ofRun _ (.finalizer (T.near_move loc) (h.codes (hn.only rfl rfl)))
  | tryCatch loc tried handler last =>
    obtain ⟨k, hhead, hlast⟩ := append_iff.1 (hn.all rfl)
    obtain ⟨j, htried, hhandler⟩ := cons_iff.1 hhead
    exact .ofRun _ (.tryCatch (T.near_move loc) (h.1 htried)
      (clauseHole_parallel h.2.1 hhandler) (stmtHole_parallel h.2.2.1 hlast))
  | undef loc name =>
    obtain rfl := hn.same rfl rfl
    exact .ofRun _ (.undef name (T.near_move loc))
  | sourceFile loc path =>
    obtain rfl := hn.eq_of_source
    exact .ofRun _ (.sourceFile m)
  | moduleConstructor loc id body =>
    obtain ⟨k, hid, hbody⟩ := hn.both rfl rfl
    exact .ofRun _ (.moduleConstructor (h.1.codes hid) (h.2 hbody))
  | print loc es => exact .ofRun _ (.print (T.near_move loc) (exprs_parallel h (hn.all rfl)))
  | delegate loc id =>
    obtain rfl := hn.same rfl rfl
    exact .ofRun _ (.delegate (T.near_move loc) id)
  | empty loc =>
    obtain rfl := hn.same rfl rfl
    exact .ofRun _ (.pure ())

theorem Terms.Aligned.stmts (hT : T.Aligned S allowed)
    (hn : NamesAll T.left allowed (ss.map .stmt) n m) :
    T.Parallel n m (runAll (stmtCodes (T.context S) (stmtsFilled T.fill ss)))
      (runAll (stmtCodes (T.context' S) (stmtsMoved T.move (stmtsFilled T.fill' ss)))) :=
  stmts_parallel hT (fun s _ => Stmt.holds (Expr.parallel hT) (Stmt.parallel hT) s) hn

theorem Terms.Aligned.program (hT : T.Aligned S allowed) {p : Program}
    (hn : NamesAll T.left allowed (p.body.map .stmt) n m) :
    T.Parallel n m ((p.filled T.fill).code (T.context S))
      (((p.filled T.fill').moved T.move).code (T.context' S)) :=
  .bind (.pushScope _) fun _ => .bind (.body _ (hT.stmts hn)) fun _ =>
    .bind (.leaveScope _) fun _ => .setState _

end Adhoc
