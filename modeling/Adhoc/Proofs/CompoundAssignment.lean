import Adhoc.Proofs.ValuePositions

namespace Adhoc

open Emit

/-- From `s` to `t` the depth changed by `n`, and it fell at most `low` below its value at `s`. -/
structure Shifts (n low : Int) (s t : Session) : Prop where
  current : t.frame.depth.current = s.frame.depth.current + n
  lowest : min s.frame.depth.lowest (s.frame.depth.current - low) ≤ t.frame.depth.lowest
  bounds : 0 ≤ low ∧ -n ≤ low

theorem Appends.shifts {v : Version} {ends : Prop} {n low : Int} {s t : Session}
    (h : Appends v ends n low s t) : Shifts n low s t := by
  have hb := h.bounds
  obtain ⟨⟨is, ms, -, -, hdepth, rfl, hdip⟩, -⟩ := h
  have hlow := Depth.le_follow_lowest s.frame.depth ms
  refine ⟨?_, ?_, hb⟩
  · rw [hdepth, Depth.follow_current]
  · rw [hdepth]
    omega

theorem shifts_one_iff {s t : Session} : Shifts 1 0 s t ↔ PushesOne s t :=
  ⟨fun h => ⟨h.current, by simpa using h.lowest⟩, fun h => ⟨h.1, by simpa using h.2, by decide⟩⟩

theorem Shifts.trans {n low n' low' : Int} {s r t : Session} (h : Shifts n low s r)
    (h' : Shifts n' low' r t) : Shifts (n + n') (max low (low' - n)) s t := by
  obtain ⟨hc, hl, hb⟩ := h
  obtain ⟨hc', hl', hb'⟩ := h'
  exact ⟨by omega, by omega, by omega⟩

theorem Shifts.mono {n low n' low' : Int} {s t : Session} (h : Shifts n low s t) (hn : n = n')
    (hl : low ≤ low') : Shifts n' low' s t := by
  obtain ⟨hc, hlow, hb⟩ := h
  exact ⟨by omega, by omega, by omega⟩

theorem Shifts.ledger (v : Version) (ends : Prop) : Ledger v ends Shifts where
  straight := Appends.shifts
  trans := .trans
  after h h' := (h.trans h').mono (by omega) (by have := h'.bounds; omega)
  before h h' := (h.trans h').mono (by omega) (by have := h.bounds; omega)
  mono := .mono

/-- What a compound assignment computes before the place that it assigns to. -/
def Expr.targetOperands : Expr → List Expr
  | .attribute _ object _ _ => [object]
  | .element _ object property _ => [object, property]
  | .unary loc .refer argument => [.unary loc .refer argument]
  | _ => []

theorem target_shifts {cx : Context} {left : Expr}
    (h : ∀ e ∈ left.targetOperands, Runs Shifts 1 0 (e.code cx).value) :
    Runs Shifts 1 0 (left.code cx).target := by
  have := Shifts.ledger cx.version False
  unfold ExprCode.target
  rw [Expr.expr_code]
  split
  · exact h _ List.mem_cons_self
  · exact (pushName_straight _ _ _).runs
  · exact pushAttribute_runs _ (h _ List.mem_cons_self)
  · exact elementMember_runs .push (h _ List.mem_cons_self) (h _ (.tail _ List.mem_cons_self))
  · exact (member_straight _ _ _).runs
  · exact .reject

theorem assignment_shifts {v : Version} {loc : Loc} {op : AssignOp} {left right : ExprCode}
    (hop : op ≠ .assign) (htarget : Runs Shifts 1 0 left.target)
    (hkept : Runs Shifts 1 0 right.kept) :
    Runs Shifts (-compoundLoss v) (compoundLoss v) (assignment v loc op left right true) := by
  have := Shifts.ledger v False
  rw [assignment, if_neg (by simpa using hop)]
  exact compoundAssignment_runs op htarget hkept (by simp)

/-- A compound assignment that stands alone leaves the depth where it was since version 5, and one
below its start before. -/
theorem compoundAssignment_depth {cx : Context} {loc place : Loc} {op : AssignOp}
    {left right : Expr} {s t : Session} (hop : op ≠ .assign)
    (hleft : ∀ e ∈ left.targetOperands, ∀ ⦃r r'⦄,
      (e.code cx).value r = .ok ((), r') → PushesOne r r')
    (hright : ∀ ⦃r r'⦄, (right.code cx).kept r = .ok ((), r') → PushesOne r r')
    (h : ((Stmt.expression loc (.assign place op left right)).code cx).run s = .ok ((), t)) :
    t.frame.depth.current = s.frame.depth.current - (if 5 ≤ cx.version.number then 0 else 1) ∧
      min s.frame.depth.lowest
          (s.frame.depth.current - (if 5 ≤ cx.version.number then 0 else 1)) ≤
        t.frame.depth.lowest := by
  have := Shifts.ledger cx.version False
  have hrun : Runs Shifts (-compoundLoss cx.version) (compoundLoss cx.version)
      ((Stmt.expression loc (.assign place op left right)).code cx).run :=
    .before (assignment_shifts hop (target_shifts fun e he _ _ _ hr => shifts_one_iff.2 (hleft e he hr))
      fun _ _ _ hr => shifts_one_iff.2 (hright hr)) fun _ => .neutral (.pure _)
  obtain ⟨hcurrent, hlowest, -⟩ := hrun h
  have hloss : compoundLoss cx.version = if 5 ≤ cx.version.number then 0 else 1 := by
    have hhas := Version.has_iff (c := .binaryAssign) rfl cx.version
    simp only [compoundLoss, hhas]
    rfl
  rw [← hloss]
  exact ⟨by omega, hlowest⟩

/-- `a.b += 1;` -/
def addedToAttribute : Stmt :=
  .expression {} (.assign {} .add (.attribute {} (.ident {} "a") (.ident {} "b") false)
    (.literal {} (.int 1)))

theorem addedToAttribute_sinks :
    ∃ t, (addedToAttribute.code (Options.context { version := ⟨4, by decide⟩ } noSources 0)).run
      scriptStart = .ok ((), t) ∧ t.frame.depth.current = scriptStart.frame.depth.current - 1 := by
  have hok : ((addedToAttribute.code (Options.context { version := ⟨4, by decide⟩ } noSources 0)).run
      scriptStart).isOk = true := by decide +kernel
  obtain ⟨result, h⟩ := exists_ok hok
  refine ⟨result.2, h, (compoundAssignment_depth (by decide) ?_ (fun r r' hr => ?_) h).1⟩
  · rintro e (_ | ⟨_, ⟨⟩⟩) r r' hr
    have happends : Appends ⟨4, by decide⟩ False 1 0 r r' := identifier_straight {} "a" hr
    exact shifts_one_iff.1 happends.shifts
  · have happends : Appends ⟨4, by decide⟩ False 1 0 r r' := literal_straight {} (.int 1) hr
    exact shifts_one_iff.1 happends.shifts

end Adhoc
