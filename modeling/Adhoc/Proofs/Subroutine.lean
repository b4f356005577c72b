import Adhoc.Proofs.Straight

namespace Adhoc

open Emit

variable {v : Version} {captures : Bool} {loc : Loc} {n : Nat}

/-- The draft of a subroutine with `n` parameters, before its body. -/
structure Draft.Begun (n : Nat) (captures : Bool) (d : Draft) : Prop where
  code : d.code = #[]
  marks : d.marks = [⟨.block, [], []⟩]
  depth : d.depth = {}
  parameters : d.parameters.length = n
  enclosing : d.enclosing.isSome = captures
  captured : d.enclosing = none → d.captured = []

/-- As a parameter, the code declares one name. -/
def ExprCode.Declares (c : ExprCode) : Prop :=
  ∀ ⦃n captures child s d t⦄, Draft.Begun n captures child → c.param child s = .ok (d, t) →
    d.Begun (n + 1) captures

namespace Draft.Begun

variable {child d : Draft} {s t : Session}

theorem newChild (h : Emit.newChild v captures s = .ok (d, t)) : d.Begun 0 captures := by
  simp only [Emit.newChild, bind_ok] at h
  obtain ⟨f, r1, -, ⟨⟨⟩, d'⟩, r2, h2, h3⟩ := h
  obtain ⟨rfl, rfl⟩ := pure_ok.1 h3
  obtain ⟨h2, -⟩ := onDraft_ok.1 h2
  cases h2
  refine ⟨rfl, rfl, rfl, rfl, ?_, fun _ => rfl⟩
  cases captures <;> rfl

theorem declare {name : String} (hc : child.Begun n captures)
    (h : declareParameter name child s = .ok (d, t)) : d.Begun (n + 1) captures := by
  simp only [declareParameter, bind_ok] at h
  obtain ⟨symbol, r1, -, ⟨⟨⟩, d'⟩, r2, h2, h3⟩ := h
  obtain ⟨rfl, rfl⟩ := pure_ok.1 h3
  obtain ⟨hcode, hmarks, hdepth, hparameters, henclosing, hcaptured⟩ :=
    Draft.addParameter_ok (onDraft_ok.1 h2).1
  refine ⟨hcode.trans hc.code, hmarks.trans hc.marks, hdepth.trans hc.depth, ?_, ?_, fun he => ?_⟩
  · simp [hparameters, hc.parameters]
  · simp [henclosing, hc.enclosing]
  · have he' : child.enclosing = none := by simpa [henclosing] using he
    exact (hcaptured he').trans (hc.captured he')

theorem afterParameters {cs : List ExprCode} (h : ∀ c ∈ cs, c.Declares) (hc : child.Begun n captures)
    (hr : Emit.parameters cs child s = .ok (d, t)) : d.Begun (n + cs.length) captures := by
  induction cs generalizing n child s with
  | nil =>
    obtain ⟨rfl, rfl⟩ := pure_ok.1 hr
    exact hc
  | cons c cs ih =>
    rw [List.forall_mem_cons] at h
    obtain ⟨child', r, h1, h2⟩ := bind_ok.1 hr
    have hd := ih h.2 (h.1 hc h1) h2
    rwa [Nat.add_assoc, Nat.add_comm 1] at hd

theorem reserveSlot (hc : child.Begun n captures) (isMethod : Bool) :
    (Emit.reserveSlot v isMethod child).Begun n captures := by
  unfold Emit.reserveSlot
  split
  · exact ⟨hc.code, hc.marks, hc.depth, hc.parameters, hc.enclosing, hc.captured⟩
  · exact hc

end Draft.Begun

namespace ExprCode.Declares

variable {c : ExprCode} {cause : Cause}

theorem name {name : String} (h : c.param = nameParameter v loc name) : c.Declares := by
  intro n captures child s d t hc hr
  simp only [h, nameParameter, bind_ok, pure_ok] at hr
  obtain ⟨child', r, h1, _, r', -, rfl, -⟩ := hr
  exact hc.declare h1

theorem rest {argument : Expr} (h : c.param = restParameter v loc argument) : c.Declares := by
  intro n captures child s d t hc hr
  rw [h, restParameter] at hr
  obtain ⟨_, r, -, hr⟩ := bind_ok.1 hr
  cases hname : argument.ident? with
  | none =>
    simp only [hname] at hr
    exact (reject_ok.1 hr).elim
  | some name =>
    simp only [hname, bind_ok, pure_ok] at hr
    obtain ⟨child', r, h1, _, r', -, rfl, -⟩ := hr
    have hd := hc.declare h1
    exact ⟨hd.code, hd.marks, hd.depth, hd.parameters, hd.enclosing, hd.captured⟩

theorem default {name? : Option String} {x : Emit Unit} {child d : Draft} {s t : Session}
    (hc : child.Begun n captures) (h : (match name? with
      | none => reject loc cause
      | some name => do
        let child ← declareParameter name child
        x
        pure child : Emit Draft) s = .ok (d, t)) : d.Begun (n + 1) captures := by
  cases name? with
  | none => exact (reject_ok.1 h).elim
  | some name =>
    simp only [bind_ok, pure_ok] at h
    obtain ⟨child', r, h1, _, r', -, rfl, -⟩ := h
    exact hc.declare h1

theorem defaulted {left right : ExprCode} (h : c.param = assignedParameter v loc left right ∨
    c.param = patternParameter v loc left right) : c.Declares := by
  intro n captures child s d t hc hr
  obtain h | h := h
  all_goals
    rw [h] at hr
    obtain ⟨_, r, -, hr⟩ := bind_ok.1 hr
    obtain ⟨_, r, -, hr⟩ := bind_ok.1 hr
    exact default hc hr

theorem rejected (h : c.param = fun _ => reject loc cause) : c.Declares := by
  intro n captures child s d t hc hr
  rw [h] at hr
  exact (reject_ok.1 hr).elim

end ExprCode.Declares

theorem Expr.declares (cx : Context) (e : Expr) : (e.code cx).Declares := by
  cases e
  case ident => exact .name rfl
  case rest => exact .rest rfl
  case assign => exact .defaulted (.inl rfl)
  case assignPattern => exact .defaulted (.inr rfl)
  case unary op _ => cases op <;> exact .rejected rfl
  all_goals exact .rejected rfl

theorem exprCodes_declare (cx : Context) (es : List Expr) :
    ∀ c ∈ exprCodes cx es, c.Declares := by
  induction es with
  | nil => exact fun _ h => nomatch h
  | cons e es ih => exact List.forall_mem_cons.2 ⟨e.declares cx, ih⟩

namespace Emit

/-- The steps of a definition of a function or method. -/
theorem subroutine_ok {r : RoutineCode} {isMethod : Bool} {s t : Session} {u : Unit}
    (h : subroutine v loc r isMethod s = .ok (u, t)) :
    ∃ symbol child child' body d r0 r1 r2 r3 r4 r5, newChild v false r0 = .ok (child, r1) ∧
      Idle s r2 ∧ parameters r.params child r2 = .ok (child', r3) ∧ Idle r3 r4 ∧
      (∃ r', NodeCode.blockBody r.body r' = .ok (body, r4)) ∧
      within (reserveSlot v isMethod child') (do
        body
        leaveScope v false
        frameExit v) r4 = .ok (d, r5) ∧
      emit v (.subroutine (some symbol) d.finish isMethod) loc.line r5 = .ok ((), t) := by
  rw [subroutine_eq] at h
  cases hname : r.id.bind Expr.ident? <;> simp only [hname, reject_ok, bind_ok] at h
  obtain ⟨symbol, r0, h1, child, r1, h2, h⟩ := h
  have hnew : Idle s r1 := (Neutral.symbol _ h1).trans (newChild_neutral _ h2)
  obtain ⟨r2, hr2, h⟩ : ∃ r2, Idle s r2 ∧
      defineRoutine v loc r isMethod symbol child r2 = .ok (u, t) := by
    split at h
    · obtain ⟨isNew, r2, h3, h⟩ := bind_ok.1 h
      obtain ⟨_, r3, h4, h⟩ := bind_ok.1 h
      exact ⟨r3, hnew.trans ((Neutral.define _ _ h3).trans (Neutral.require h4)), h⟩
    · exact ⟨r1, hnew, h⟩
  simp only [defineRoutine, defineMember, defineBody, bind_ok] at h
  obtain ⟨child', r3, h3, scope, r4, h4, _, r5, h5, _, r6, h6, body, r7, h7, d, r8, h8, h9⟩ := h
  have hmember : Idle r3 r6 := (Neutral.onFrame Draft.scope_neutral h4).trans
    ((Neutral.require h5).trans (addMember_neutral _ h6))
  exact ⟨symbol, child, child', body, d, r0, r1, r2, r3, r7, r8, h2, hr2, h3,
    hmember.trans (blockBody_neutral _ h7), ⟨r6, h7⟩, h8, h9⟩

end Emit
end Adhoc
