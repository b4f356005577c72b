import Adhoc.Proofs.Core
import Adhoc.Proofs.CountProgram

namespace Adhoc

open Emit List

variable {v : Version} {loc : Loc} {c left : ExprCode} {cx : Context} {e : Expr}

/-- A place for an expression that is used for its value, with what stands around it. -/
inductive ValuePosition
  | initializer (loc place : Loc) (id : Option Expr) (before after : List Declarator)
  | rightOperand (loc : Loc) (op : BinaryOp) (left : Expr)
  | rightOfLogical (loc : Loc) (op : LogicalOp) (left : Expr)
  | assigned (loc : Loc) (left : Expr)
  | argument (loc : Loc) (callee : Expr) (before after : List Expr)
  | arrayElement (loc : Loc) (before after : List (Option Expr))
  | mapKey (loc : Loc) (value : Expr) (before after : List (Expr × Expr))
  | mapValue (loc : Loc) (key : Expr) (before after : List (Expr × Expr))
  | thenBranch (loc : Loc) (test alternate : Expr)
  | elseBranch (loc : Loc) (test consequent : Expr)
  /-- An expression in a template follows a stretch of text. -/
  | inTemplate (loc : Loc) (quasis : List Quasi) (before after : List Expr)
    (h : before.length < quasis.length)

namespace ValuePosition

/-- The part that has the expression in the position. -/
def fill (e : Expr) : ValuePosition → Part
  | .initializer loc place id before after =>
    .stmt (.declare loc (before ++ ⟨place, id, some e⟩ :: after))
  | .rightOperand loc op left => .expr (.binary loc op left e)
  | .rightOfLogical loc op left => .expr (.logical loc op left e)
  | .assigned loc left => .expr (.assign loc .assign left e)
  | .argument loc callee before after => .expr (.call loc callee (before ++ e :: after))
  | .arrayElement loc before after => .expr (.array loc (before ++ some e :: after))
  | .mapKey loc value before after => .expr (.map loc (before ++ (e, value) :: after))
  | .mapValue loc key before after => .expr (.map loc (before ++ (key, e) :: after))
  | .thenBranch loc test alternate => .expr (.conditional loc test e alternate)
  | .elseBranch loc test consequent => .expr (.conditional loc test consequent e)
  | .inTemplate loc quasis before after _ => .expr (.template loc quasis (before ++ e :: after))

/-- The code that the expression has in the position. -/
def action (v : Version) (c : ExprCode) : ValuePosition → Emit Unit
  | .initializer .. => c.declared
  | .assigned .. => if v.has .valueBeforePush then c.kept else c.referred
  | .argument _ callee _ _ => if callee.ident? = some "call" then c.value else c.passed
  | .thenBranch .. => c.referred
  | _ => c.value

/-- How many values the expression leaves in the position. -/
def gain (v : Version) (e : Expr) : ValuePosition → Int
  | .initializer .. => e.keptGain
  | .assigned .. => if v.has .valueBeforePush then e.keptGain else e.gain
  | _ => e.gain

end ValuePosition

/-- The code of a part as an expression's value or as a statement. -/
def Part.emitted (cx : Context) : Part → Emit Unit
  | .expr e => (e.code cx).value
  | .stmt s => (s.code cx).run

/-- From `s` to `t` the depth rose by one, and it never fell below its value at `s`. -/
def PushesOne (s t : Session) : Prop :=
  t.frame.depth.current = s.frame.depth.current + 1 ∧
    min s.frame.depth.lowest s.frame.depth.current ≤ t.frame.depth.lowest

theorem Tallied.pushesOne_iff {fit nested : Prop} {n : Int} {s t : Session}
    (h : Tallied fit nested v n 0 s t) (hfit : fit) (hv : 8 ≤ v.number) :
    PushesOne s t ↔ n = 1 := by
  obtain ⟨moves, hdepth, hdip, hnet⟩ := h.moves hfit
  have howed : ∀ code, owed v code = 0 := fun code => by
    have hhas : v.has .subroutineConsumesStack = true := (Version.has_iff rfl v).2 hv
    rw [owed, if_pos hhas]
  have hlow := Depth.le_follow_lowest s.frame.depth moves
  rw [howed, howed] at hnet
  rw [PushesOne, hdepth, Depth.follow_current]
  omega

theorem ValuePosition.action_counts {nested : Prop} (h : e.IsCounted cx nested)
    (pos : ValuePosition) :
    Counts ((Part.expr e).IsProper cx nested) nested cx.version (pos.gain cx.version e) 0
      (pos.action cx.version (e.code cx)) := by
  cases pos with
  | initializer => exact h.declared
  | assigned =>
    simp only [action, gain]
    split
    · exact h.kept
    · exact h.referred
  | argument =>
    simp only [action, gain]
    split
    · exact h.value
    · exact h.passed
  | thenBranch => exact h.referred
  | _ => exact h.value

/-- Every run of `x` runs `y` on its way. -/
def Emit.Passes {α : Type} (y : Emit Unit) (x : Emit α) : Prop :=
  ∀ ⦃s a t⦄, x s = .ok (a, t) → ∃ r r', y r = .ok ((), r')

namespace Emit.Passes

variable {α β : Type} {y : Emit Unit} {f : α → Emit β} {x : Emit α}

theorem here : Passes y y := fun s _ t h => ⟨s, t, h⟩

theorem first (h : Passes y x) : Passes y (x >>= f) := by
  intro s b t hr
  obtain ⟨a, r, hx, -⟩ := bind_ok.1 hr
  exact h hx

theorem later (h : ∀ a, Passes y (f a)) : Passes y (x >>= f) := by
  intro s b t hr
  obtain ⟨a, r, -, hf⟩ := bind_ok.1 hr
  exact h a hf

theorem forM {f : α → Emit Unit} {l : List α} {a : α} (ha : a ∈ l) (h : Passes y (f a)) :
    Passes y (l.forM f) := by
  induction l with
  | nil => cases ha
  | cons b l ih =>
    rcases mem_cons.1 ha with rfl | ha
    · exact first h
    · exact later fun _ => ih ha

theorem reject {loc : Loc} {what : Cause} : Passes y (Emit.reject loc what : Emit α) :=
  fun _ _ _ h => (reject_ok.1 h).elim

theorem ite {p : Prop} [Decidable p] {a b : Emit α} (ha : p → Passes y a) (hb : ¬ p → Passes y b) :
    Passes y (if p then a else b) := by
  split
  · exact ha ‹_›
  · exact hb ‹_›

end Emit.Passes

theorem declarator_passes {id : Option ExprCode} (fromStack : Bool) :
    Passes c.declared (declarator v fromStack ⟨loc, id, some c⟩) := by
  cases id with
  | none => exact .reject
  | some id =>
    refine .later fun _ => ?_
    cases v.has .valueBeforePush with
    | true => exact .first .here
    | false => exact .later fun _ => .first .here

theorem binary_passes (op : BinaryOp) : Passes c.value (Emit.binary v loc op left c) := by
  refine .later fun _ => ?_
  cases op.symbol? with
  | some text => exact .first .here
  | none => exact .later fun _ => .later fun _ => .first .here

theorem logical_passes (op : LogicalOp) : Passes c.value (Emit.logical v loc op left c) := by
  refine .ite (fun _ => ?_) fun _ => ?_
  · exact .later fun _ => .later fun _ => .later fun _ => .first .here
  · refine .later fun _ => .later fun _ => ?_
    dsimp only
    split
    · exact .later fun _ => .first .here
    · exact .first .here

theorem call_passes {callee : ExprCode} {cs : List ExprCode} (hc : c ∈ cs) :
    Passes (if callee.name? = some "call" then c.value else c.passed)
      (Emit.call v loc callee cs) := by
  simp only [Emit.call, beq_iff_eq]
  by_cases hname : callee.name? = some "call"
  · simp only [if_pos hname]
    exact .first (.later fun _ => .later fun _ => .first (.forM hc .here))
  · simp only [if_neg hname]
    exact .first (.later fun _ => .first (.forM hc .here))

theorem arrayElements_passes {after : Emit Unit} {cs : List (Option ExprCode)} (hc : some c ∈ cs) :
    Passes c.value (arrayElements loc after cs) := by
  induction cs with
  | nil => cases hc
  | cons o cs ih =>
    cases o with
    | none => exact .reject
    | some d =>
      rcases mem_cons.1 hc with h | h
      · cases h
        exact .first .here
      · exact .later fun _ => .later fun _ => ih h

theorem templateParts_passes {quasis : List Quasi} {before after : List ExprCode}
    (h : before.length < quasis.length) :
    Passes c.value (templateParts v quasis (before ++ c :: after)) := by
  induction before generalizing quasis with
  | nil =>
    cases quasis with
    | nil => cases h
    | cons q quasis => exact .later fun _ => .later fun _ => .first .here
  | cons d before ih =>
    cases quasis with
    | nil => cases h
    | cons q quasis =>
      exact .later fun _ => .later fun _ => .later fun _ => .first (ih (Nat.lt_of_succ_lt_succ h))

theorem ValuePosition.fill_passes (pos : ValuePosition) :
    Passes (pos.action cx.version (e.code cx)) ((pos.fill e).emitted cx) := by
  cases pos with
  | initializer loc place id before after =>
    refine .forM (a := Declarator.code cx ⟨place, id, some e⟩) ?_ (declarator_passes false)
    rw [declaratorCodes_eq]
    exact mem_map_of_mem (by simp)
  | rightOperand loc op left => exact binary_passes op
  | rightOfLogical loc op left => exact logical_passes op
  | assigned loc left =>
    change Passes _ (plainAssignment cx.version (left.code cx) (e.code cx) true)
    simp only [action, plainAssignment]
    split
    · exact .first .here
    · exact .later fun _ => .first .here
  | argument loc callee before after =>
    have hname : (callee.code cx).name? = callee.ident? := by rw [ExprCode.name?, Expr.expr_code]
    have hmem : e.code cx ∈ exprCodes cx (before ++ e :: after) := by
      rw [exprCodes_eq]
      exact mem_map_of_mem (by simp)
    rw [action, ← hname]
    exact call_passes hmem
  | arrayElement loc before after =>
    have hmem : some (e.code cx) ∈ holeCodes cx (before ++ some e :: after) := by
      rw [holeCodes_eq]
      exact mem_map.2 ⟨some e, by simp, rfl⟩
    refine .ite (fun _ => ?_) fun _ => ?_
    · exact .later fun _ => arrayElements_passes hmem
    · exact .first (arrayElements_passes hmem)
  | mapKey loc value before after =>
    refine .later fun _ => .later fun _ => .forM (a := (e.code cx, value.code cx)) ?_ (.first .here)
    rw [pairCodes_eq]
    exact mem_map.2 ⟨(e, value), by simp, rfl⟩
  | mapValue loc key before after =>
    refine .later fun _ => .later fun _ =>
      .forM (a := (key.code cx, e.code cx)) ?_ (.later fun _ => .first .here)
    rw [pairCodes_eq]
    exact mem_map.2 ⟨(key, e), by simp, rfl⟩
  | thenBranch loc test alternate => exact .later fun _ => .later fun _ => .first .here
  | elseBranch loc test consequent =>
    refine .later fun _ => .later fun _ => .later fun _ => .later fun _ => ?_
    dsimp only
    split
    · exact .later fun _ => .later fun _ => .first .here
    · exact .later fun _ => .later fun _ => .first .here
  | inTemplate loc quasis before after h =>
    change Passes _ (Emit.template cx.version loc quasis (exprCodes cx (before ++ e :: after)))
    have hparts : Passes (e.code cx).value
        (templateParts cx.version quasis (exprCodes cx (before ++ e :: after))) := by
      rw [exprCodes_eq, map_append, map_cons]
      exact templateParts_passes (by simpa using h)
    unfold Emit.template
    split
    · rename_i hnone
      simp [exprCodes_eq] at hnone
    · exact .first hparts

/-- Where a part is compiled that has an expression in a value position, the expression's code is
run, and every run of it pushes exactly one value if and only if the form of the expression says so.
The operands inside the expression must be in order themselves, else two errors could make up for
each other. -/
theorem valuePosition_pushesOne_iff {o : Options} {sources : Sources} {depth : Nat}
    {pos : ValuePosition} {e : Expr} {s t : Session} (hv : 8 ≤ o.version.number)
    (hproper : (Part.expr e).IsProper (o.context sources depth) False)
    (h : (pos.fill e).emitted (o.context sources depth) s = .ok ((), t)) :
    (∃ r r', pos.action o.version (e.code (o.context sources depth)) r = .ok ((), r')) ∧
      ∀ r r', pos.action o.version (e.code (o.context sources depth)) r = .ok ((), r') →
        (PushesOne r r' ↔ pos.gain o.version e = 1) := by
  have hcounted : e.IsCounted (o.context sources depth) False := Expr.isCounted _ False depth e
  have hcounts := pos.action_counts hcounted
  have hpasses := pos.fill_passes h
  simp only [Options.version_context] at hcounts hpasses
  exact ⟨hpasses, fun r r' hr => (hcounts hr).pushesOne_iff hproper hv⟩

/-- The right operand of `x + (y = 1)`. -/
def rightAssignment : Expr := .assign {} .assign (.ident {} "y") (.literal {} (.int 1))

def sumPosition : ValuePosition := .rightOperand {} .add (.ident {} "x")

/-- The start of a script, in its outermost scope. -/
def scriptStart : Session :=
  { Session.start {} "main" with
    frame := { (Session.start {} "main").frame with scopes := [{ kind := .block }] } }

theorem rightAssignment_not_pushesOne :
    (Part.expr rightAssignment).IsProper (Options.context {} noSources 0) False ∧
    ∃ t r r', (sumPosition.fill rightAssignment).emitted (Options.context {} noSources 0) scriptStart =
        .ok ((), t) ∧
      sumPosition.action .latestCommon (rightAssignment.code (Options.context {} noSources 0)) r =
        .ok ((), r') ∧ ¬ PushesOne r r' := by
  have hcore : (Part.expr rightAssignment).Core False :=
    .inr (.assign _ rfl (.ident _ _) (.literal _ _))
  have hproper := hcore.proper ((Options.context {} noSources 0).library none) .latestCommon False
  have hok : ((sumPosition.fill rightAssignment).emitted (Options.context {} noSources 0)
      scriptStart).isOk = true := by decide +kernel
  obtain ⟨result, h⟩ := exists_ok hok
  obtain ⟨⟨r, r', hr⟩, hiff⟩ := valuePosition_pushesOne_iff (o := {}) (by decide) hproper h
  exact ⟨hproper, result.2, r, r', h, hr, fun hone => absurd ((hiff r r' hr).1 hone) (by decide)⟩

end Adhoc
