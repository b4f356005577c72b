import Adhoc.Proofs.Straight

namespace Adhoc

open Emit List

variable {v : Version} {ends : Prop} {R : Int → Int → Session → Session → Prop}
  [ledger : Ledger v ends R] {loc : Loc} {c left right object property : ExprCode}
  {cs : List ExprCode} {n : Int} {elements : List (Option ExprCode)} {drops : Bool} {x : Emit Unit}

include ledger

omit ledger in
theorem Emit.Runs.required {β : Type} {low : Int} {condition : Bool} {cause : Cause}
    {f : Unit → Emit β} (hf : condition = true → Runs R n low (f ())) :
    Runs R n low (require condition loc cause >>= f) := by
  intro s b t h
  obtain ⟨_, r, h1, h2⟩ := bind_ok.1 h
  obtain ⟨hc, rfl⟩ := require_ok.1 h1
  exact hf hc h2

/-- A first step that says how many values it has pushed, and one that takes these away. -/
theorem Emit.Runs.counting {α β : Type} {x : Emit α} {f : α → Emit β} {size : α → Int}
    (hx : ∀ ⦃s a t⦄, x s = .ok (a, t) → R (size a) 0 s t)
    (hf : ∀ a, Runs R (n - size a) (size a) (f a)) : Runs R n 0 (x >>= f) := by
  intro s b t h
  obtain ⟨a, r, h1, h2⟩ := bind_ok.1 h
  exact Ledger.mono (Ledger.trans (hx h1) (hf a h2)) (by omega) (by omega)

theorem runAll_runs {ss : List StmtCode} (h : ∀ c ∈ ss, Runs R 0 0 c.run) :
    Runs R 0 0 (runAll ss) :=
  .mono (.forM ss h (Int.le_refl _)) (by simp) (Int.le_refl _)

omit ledger in
theorem gathered (n : Nat) : net [.pop n, .push 1] = 1 - n ∧ dip [.pop n, .push 1] ≤ n := by
  simp only [net, dip, Move.change, map_cons, map_nil, sum_cons, sum_nil]
  omega

omit ledger in
theorem stringPush_straight (n : Nat) (line : UInt32) :
    Straight v ends (1 - n) n (emit v (.counted .stringPush n) line) :=
  .emit _ rfl rfl (gathered n)

theorem arrayElements_runs {after : Emit Unit} (h : ∀ c, some c ∈ elements → Runs R 1 0 c.value)
    (hafter : Runs R (n - 1) 1 after) (hn : 0 ≤ n) :
    Runs R (elements.length * n) 0 (arrayElements loc after elements) := by
  induction elements with
  | nil => exact .mono (.neutral (.pure ())) (by simp) (by decide)
  | cons o elements ih =>
    cases o with
    | none => exact .reject
    | some c =>
      have hrest := ih fun c hc => h c (mem_cons_of_mem _ hc)
      refine .seq (h c mem_cons_self) (fun _ => .seq hafter (fun _ => hrest) ⟨rfl, ?_, ?_⟩)
        ⟨?_, by decide, Int.le_refl (1 - 1)⟩
      · exact Int.le_refl _
      · omega
      · simp [Int.add_mul]
        omega

theorem array_runs (h : ∀ c, some c ∈ elements → Runs R 1 0 c.value) :
    Runs R 1 0 (array v loc elements) := by
  unfold array
  split
  · have hpush : Runs R (0 - 1) 1 (emit v (.simple .arrayPush) 0) :=
      .emit _ rfl rfl (by decide)
    exact .seq (a := 1) (c := 0) (.emit _ rfl rfl ⟨rfl, Int.le_refl _⟩)
      (fun _ => arrayElements_runs h hpush (Int.le_refl _)) ⟨by simp, by decide, by decide⟩
  · have hpure : Runs R (1 - 1) 1 (pure () : Emit Unit) :=
      .mono (.neutral (.pure ())) rfl (by decide)
    refine .seq (b := 1 - elements.length) (d := elements.length)
      (arrayElements_runs h hpure (by decide)) (fun _ => ?_) ⟨by omega, by decide, by omega⟩
    exact .emit _ rfl rfl (gathered _)

theorem map_runs {entries : List (ExprCode × ExprCode)}
    (h : ∀ p ∈ entries, Runs R 1 0 p.1.value ∧ Runs R 1 0 p.2.value) :
    Runs R 1 0 (map v loc entries) := by
  have hentry : ∀ p ∈ entries, Runs R 0 0 (mapEntry v p) := by
    intro p hp
    refine .push (h p hp).1 fun _ => ?_
    exact .push (h p hp).2 fun _ => .emit _ rfl rfl (by decide)
  refine .skip .require fun _ => ?_
  exact .seq (a := 1) (c := 0) (.emit _ rfl rfl (by decide))
    (fun _ => .forM entries hentry (Int.le_refl _)) ⟨by simp, by decide, by decide⟩

theorem elementMember_runs (reach : Reach) (ho : Runs R 1 0 object.value)
    (hp : Runs R 1 0 property.value) :
    Runs R 1 0 (elementMember v reach loc object property) := by
  refine .push ho fun _ => ?_
  refine .push hp fun _ => ?_
  split
  · cases reach <;> exact .emit _ rfl rfl (by decide)
  · refine .skip (.operatorSymbol _ _) fun symbol => ?_
    refine .before (.emit _ rfl rfl ⟨rfl, Int.le_refl _⟩) fun _ => ?_
    exact .ite (.emit _ rfl rfl (by decide)) (.neutral (.pure _))

theorem optionalElement_runs (ho : Runs R 1 0 object.value)
    (hp : Runs R 1 0 property.value) :
    Runs R 1 0 (optionalElement v loc object property) := by
  refine .skip .require fun _ => ?_
  refine .push ho fun _ => ?_
  refine .after (.emit _ rfl rfl (by decide)) fun _ => ?_
  refine .push hp fun _ => ?_
  exact .before (.emit _ rfl rfl (by decide)) fun _ => .warn _

theorem attributeMember_runs (property : Expr) (optional : Bool)
    (ho : Runs R 1 0 object.value) :
    Runs R 1 0 (attributeMember v loc object property optional) := by
  have hlast : Runs R 0 0 (do
      let names ← attributeNames property
      emit v (.pathed .attributeEval names) property.loc.line) :=
    .skip (attributeNames_neutral _) fun _ => .emit _ rfl rfl (by decide)
  refine .skip .require fun _ => .before ho fun _ => ?_
  dsimp only
  split
  · refine .after (.emit _ rfl rfl (by decide)) fun _ => ?_
    exact .after (.warn _) fun _ => hlast
  · exact hlast

theorem pushAttribute_runs (property : Expr) (ho : Runs R 1 0 object.value) :
    Runs R 1 0 (pushAttribute v object property) := by
  refine .push ho fun _ => ?_
  cases property.ident? with
  | none => exact .reject
  | some name =>
    refine .skip (.symbol _) fun symbol => ?_
    exact .emit _ rfl rfl (by decide)

theorem selector_runs (ho : Runs R 1 0 object.value)
    (hp : Runs R 1 0 property.value) :
    Runs R 1 0 (selector v loc object property) := by
  refine .push ho fun _ => ?_
  exact .push hp fun _ => .emit _ rfl rfl (by decide)

omit ledger in
/-- How far a compound assignment ends below where it should. -/
def compoundLoss (v : Version) : Int := if v.has .binaryAssign then 0 else 1

theorem compoundAssignment_runs (op : AssignOp) (htarget : Runs R 1 0 left.target)
    (hkept : Runs R 1 0 right.kept) (hn : n = (if drops then 0 else 1) - compoundLoss v) :
    Runs R n (compoundLoss v) (do
      require op.symbol?.isSome loc (.assignmentOperator op.text)
      left.target
      right.kept
      binaryAssign v op loc
      if drops then pop v) := by
  have hassign : Runs R (-1 - compoundLoss v) (2 + compoundLoss v) (binaryAssign v op loc) := by
    refine .mono (binaryAssign_straight op loc).runs ?_ ?_ <;> unfold compoundLoss <;> split <;>
      decide
  have hpop : Runs R ((if drops then 0 else 1) - 1) 1 (if drops then pop v else pure ()) := by
    cases drops with
    | true => exact pop_straight.runs
    | false => exact .mono (.neutral (.pure _)) rfl (by decide)
  have hloss : 0 ≤ compoundLoss v := by
    unfold compoundLoss
    split <;> decide
  refine .skip .require fun _ => ?_
  refine .seq (b := n - 1) (d := 1 + compoundLoss v) htarget (fun _ => ?_) (by omega)
  refine .seq (b := n - 2) (d := 2 + compoundLoss v) hkept (fun _ => ?_) (by omega)
  exact .seq hassign (fun _ => hpop) (by omega)

omit ledger in
theorem call_straight (n : Nat) (line : UInt32) :
    Straight v ends (-n) (n + 1) (emit v (.counted .call n) line) := by
  refine .emit _ rfl rfl ⟨?_, ?_⟩
  · simp only [net, Counted.effect, Move.change, map_cons, map_nil, sum_cons,
      sum_nil]
    omega
  · simp only [dip, Counted.effect, Move.change]
    omega

theorem variadicCall_runs (h : ∀ c ∈ cs, Runs R 1 0 c.value) :
    Runs R (cs.length - 1) 0 (variadicCall v loc cs) := by
  refine .required fun _ => .required fun htwo => ?_
  have hlen := of_decide_eq_true htwo
  refine .seq (b := -1) (d := 2) (.forM cs h (by decide)) (fun _ => ?_) ⟨by omega, by decide, by omega⟩
  exact .before (.emit _ rfl rfl ⟨rfl, Int.le_refl _⟩) fun _ => .warn _

theorem plainCall_runs (hc : Runs R 1 0 c.value)
    (h : ∀ c ∈ cs, Runs R 1 0 c.passed) :
    Runs R 1 0 (plainCall v loc c cs) := by
  refine .push hc fun _ => ?_
  exact .seq (.forM cs h (by decide)) (fun _ => (call_straight _ _).runs) ⟨by omega, by decide, by omega⟩

theorem call_runs (hn : n = if c.name? = some "call" then (cs.length : Int) - 1 else 1)
    (hv : c.name? = some "call" → ∀ c ∈ cs, Runs R 1 0 c.value)
    (hp : c.name? ≠ some "call" → Runs R 1 0 c.value ∧
      ∀ c ∈ cs, Runs R 1 0 c.passed) : Runs R n 0 (call v loc c cs) := by
  unfold call
  simp only [beq_iff_eq]
  by_cases hname : c.name? = some "call"
  · rw [if_pos hname] at hn ⊢
    rw [hn]
    exact .before (variadicCall_runs (hv hname)) fun _ => (afterCall_straight _).runs
  · rw [if_neg hname] at hn ⊢
    rw [hn]
    exact .before (plainCall_runs (hp hname).1 (hp hname).2) fun _ => (afterCall_straight _).runs

theorem binary_runs (op : BinaryOp) (hl : Runs R 1 0 left.kept)
    (hr : Runs R 1 0 right.value) :
    Runs R 1 0 (binary v loc op left right) := by
  refine .push hl fun _ => ?_
  cases op.symbol? with
  | some text =>
    refine .push hr fun _ => ?_
    refine .skip (.operatorSymbol _ _) fun symbol => ?_
    exact .emit _ rfl rfl ⟨rfl, Int.le_refl _⟩
  | none =>
    refine .skip (.symbol _) fun method => ?_
    refine .after (.emit _ rfl rfl (by decide)) fun _ => ?_
    exact .push hr fun _ => (call_straight 1 _).runs

theorem unary_runs (op : UnaryOp) (h : Runs R 1 0 c.value)
    (hu : Runs R 1 0 c.underRefer) : Runs R 1 0 (unary v loc op c) := by
  unfold unary
  split
  · refine .push h fun _ => ?_
    refine .skip (.operatorSymbol _ _) fun symbol => ?_
    exact .emit _ rfl rfl ⟨rfl, Int.le_refl _⟩
  · split
    · refine .before h fun _ => ?_
      exact .ite (.emit _ rfl rfl (by decide)) (.neutral (.pure _))
    · exact hu

theorem updated_runs (op : UpdateOp) (prior : Bool) (hx : Runs R 1 0 x) : Runs R 1 0 (do
      x
      updateOperator v loc op prior) :=
  .push hx fun _ => (updateOperator_straight _ _ _).runs

theorem store_runs (hs : Runs R 1 0 left.stored)
    (hp : ∀ pattern, left.pattern? = some pattern → Runs R (-1) 1 (pattern false))
    (hn : n = if left.pattern?.isSome || drops then -1 else 0) :
    Runs R n 1 (left.store v drops) := by
  unfold ExprCode.store
  cases hleft : left.pattern? with
  | some pattern =>
    simp only [hleft, Option.isSome_some, Bool.true_or, if_true] at hn
    exact hn ▸ hp pattern hleft
  | none =>
    refine .seq hs (fun _ => (assignAnd_straight drops).runs) ⟨?_, by decide, by decide⟩
    cases drops <;> simp [hn, hleft]

theorem plainAssignment_runs (hkept : v.has .valueBeforePush = true → Runs R 1 0 right.kept)
    (hstore : v.has .valueBeforePush = true → Runs R (n - 1) 1 (left.store v drops))
    (htarget : Runs R 1 0 left.target)
    (hreferred : v.has .valueBeforePush = false → Runs R 1 0 right.referred)
    (hn : v.has .valueBeforePush = false → n = if drops then 0 else 1) :
    Runs R n 0 (plainAssignment v left right drops) := by
  unfold plainAssignment
  cases hv : v.has .valueBeforePush with
  | true =>
    simp only [if_true]
    exact .push (hkept hv) fun _ => hstore hv
  | false =>
    simp only [Bool.false_eq_true, if_false]
    refine .push htarget fun _ => ?_
    refine .seq (hreferred hv) (fun _ => (assignAnd_straight drops).runs) ⟨?_, by decide, by decide⟩
    cases drops <;> simp [hn hv]

omit ledger in
theorem storedThrough_runs (h : Runs R 1 0 c.value) :
    Runs R 1 0 (storedThrough c) := by
  unfold storedThrough
  split
  all_goals first
    | exact h
    | exact .reject

theorem patternElements_runs {declares : Bool}
    (h : ∀ c ∈ cs, ∀ isLast, Runs R 1 0 (c.element declares isLast)) :
    Runs R cs.length 0 (patternElements declares cs) := by
  fun_induction patternElements declares cs with
  | case1 => exact .neutral (.pure _)
  | case2 c => exact h c mem_cons_self true
  | case3 c cs hcs ih =>
    rw [forall_mem_cons] at h
    exact .seq (.discard (h.1 false)) (fun _ => ih h.2) ⟨by simp; omega, by decide, by decide⟩

theorem newTemporary_runs {stem : String} (h : Runs R 1 0 x) :
    Runs R 0 0 (newTemporary v x stem loc) := by
  refine .skip (.temporary _) fun symbol => ?_
  have hlast : Runs R (-2) 2 (do
      assignPop v
      pure symbol) := .last assignPop_straight.runs fun _ => .pure _
  have hpush : Runs R 1 0 (pushName v symbol.name loc true) :=
    (pushName_straight _ _ _).runs
  dsimp only
  split
  · refine .push h fun _ => ?_
    exact .push hpush fun _ => hlast
  · refine .push hpush fun _ => ?_
    exact .push h fun _ => hlast

theorem assignedParameter_runs (child : Draft)
    (hr : isLiteral right.expr = true → Runs R 1 0 right.value) :
    Runs R 1 0 (assignedParameter v loc left right child) := by
  refine .required fun _ => .required fun hliteral => ?_
  cases left.name? with
  | none => exact .reject
  | some name =>
    refine .skip (declareParameter_neutral _ _) fun child => ?_
    exact .last (hr hliteral) fun _ => .pure _

theorem patternParameter_runs (child : Draft)
    (hr : isDefault right.expr = true → Runs R 1 0 right.value) :
    Runs R 1 0 (patternParameter v loc left right child) := by
  refine .required fun _ => .required fun hdefault => ?_
  cases left.name? with
  | none => exact .reject
  | some name =>
    refine .skip (declareParameter_neutral _ _) fun child => ?_
    exact .last (hr hdefault) fun _ => .pure _

theorem parameters_runs (child : Draft)
    (h : ∀ c ∈ cs, ∀ child, Runs R 1 0 (c.param child)) :
    Runs R cs.length 0 (parameters cs child) := by
  induction cs generalizing child with
  | nil => exact .neutral (.pure child)
  | cons c cs ih =>
    rw [forall_mem_cons] at h
    exact .seq (h.1 child) (fun child => ih child h.2) ⟨by simp; omega, by decide, by decide⟩

end Adhoc
