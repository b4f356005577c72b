import Adhoc.Proofs.Accounts
import Adhoc.Proofs.Pacing

namespace Adhoc

open Emit

variable {v : Version} {loc : Loc} {c left right test consequent alternate : ExprCode}
  {cs : List ExprCode}

theorem net_logicalJump_aside (op : LogicalOp) : net (logicalJump v op).aside = 0 := by
  cases op <;> simp only [logicalJump] <;> split <;> rfl

theorem dip_logicalJump (op : LogicalOp) : dip (logicalJump v op).effect ≤ 1 := by
  cases op <;> simp only [logicalJump] <;> split <;> decide

theorem net_logicalJump (op : LogicalOp) :
    net (logicalJump v op).effect = if v.has .newLogicalInstructions then -1 else 0 := by
  cases op <;> simp only [logicalJump] <;> split <;> rfl

theorem logical_paced {op : LogicalOp} (hop : op ≠ .coalesce) (hl : Yields v left.kept)
    (hr : Yields v right.value) : Yields v (logical v loc op left right) := by
  intro s _ t h g hs hlow _
  unfold logical at h
  rw [if_neg (by simpa using hop)] at h
  simp only [bind_ok] at h
  obtain ⟨_, r1, h1, k, r2, h2, h⟩ := h
  have hdip := dip_logicalJump (v := v) op
  have hnet := net_logicalJump (v := v) op
  have haside := net_logicalJump_aside (v := v) op
  obtain ⟨g1, a1, c1⟩ := hl h1 g hs hlow False.elim
  obtain ⟨g2, a2, ⟨hk, htaken⟩, c2⟩ := Advances.jump a1.sound h2 (by omega) nofun
  -- Behind the jump, the left value goes if it is still there, and the right one comes.
  suffices hrest : ∃ r, Paced v False (-net (logicalJump v op).effect)
      (1 + net (logicalJump v op).effect) r2 r ∧ patchHere k r = .ok ((), t) by
    obtain ⟨r, hrest, hpatch⟩ := hrest
    obtain ⟨g3, a3, c3⟩ := hrest g2 a2.sound (by omega) False.elim
    obtain ⟨a4, hdepth⟩ := Advances.patchHere a3.sound (by rw [a3.taken k hk]; omega) hpatch
    exact ⟨g3, ((a1.trans a2).trans a3).trans a4, by rw [hdepth]; omega⟩
  rw [hnet]
  cases hv : v.has .newLogicalInstructions with
  | true =>
    simp only [hv, Bool.not_true, Bool.false_eq_true, if_false, bind_ok] at h
    obtain ⟨_, r3, h3, h4⟩ := h
    exact ⟨r3, hr h3, h4⟩
  | false =>
    simp only [hv, Bool.not_false, if_true, bind_ok] at h
    obtain ⟨_, r3, h3, _, r4, h4, h5⟩ := h
    have hpop : Paced v False (-1) 1 r2 r3 := pop_straight.runs h3
    exact ⟨r4, hpop.trans (hr h4) False.elim, h5⟩

theorem conditional_paced (ht : Yields v test.value)
    (hc : Yields v consequent.referred)
    (ha : Yields v alternate.value) : Yields v (conditional v test consequent alternate) := by
  intro s _ t h g hs hlow _
  simp only [conditional, bind_ok] at h
  obtain ⟨_, r1, h1, j, r2, h2, _, r3, h3, k, r4, h4, h⟩ := h
  obtain ⟨g1, a1, c1⟩ := ht h1 g hs hlow False.elim
  obtain ⟨g2, a2, ⟨hj, htest⟩, c2⟩ := Advances.test a1.sound (.inr rfl) h2 (by omega)
  obtain ⟨g3, a3, c3⟩ := hc h3 g2 a2.sound a2.sound.ground False.elim
  -- Behind the first branch its value is taken off the count, with an instruction or without.
  suffices hrest : ∃ r g4, Advances v r3 g3 r g4 ∧ (k < r.frame.code.size ∧
      g4.taken k = r3.frame.depth.current) ∧ r.frame.depth.current = r3.frame.depth.current - 1 ∧ (do
        patchHere j
        alternate.value
        patchHere k) r = .ok ((), t) by
    obtain ⟨r, g4, a4, ⟨hk, htaken⟩, c4, h⟩ := hrest
    simp only [bind_ok] at h
    obtain ⟨_, r5, h5, _, r6, h6, h7⟩ := h
    have hj' : g4.taken j = r.frame.depth.current := by
      rw [(a3.trans a4).taken j hj]
      omega
    obtain ⟨a5, hdepth5⟩ := Advances.patchHere a4.sound hj' h5
    obtain ⟨g6, a6, c6⟩ := ha h6 g4 a5.sound a5.sound.ground False.elim
    rw [hdepth5] at c6
    have hk' : g6.taken k = r6.frame.depth.current := by
      rw [a6.taken k (Nat.lt_of_lt_of_le hk a5.size)]
      omega
    obtain ⟨a7, hdepth7⟩ := Advances.patchHere a6.sound hk' h7
    exact ⟨g6, (((((a1.trans a2).trans a3).trans a4).trans a5).trans a6).trans a7,
      by rw [hdepth7]; omega⟩
  have hvalue : 1 ≤ r3.frame.depth.current := by
    have := a2.sound.ground
    omega
  split at h
  · obtain ⟨_, r, h5, h6⟩ := bind_ok.1 h
    obtain ⟨g4, a4, ⟨hk, htaken⟩, c4⟩ := Advances.leap a3.sound h4 nofun
    have hpop : Runs (Paced v False) (-1) 1 (pop v) := pop_straight.runs
    obtain ⟨g5, a5, c5⟩ := hpop h5 g4 a4.sound (by omega) False.elim
    exact ⟨r, g5, a4.trans a5, ⟨Nat.lt_of_lt_of_le hk a5.size, (a5.taken k hk).trans htaken⟩,
      by omega, h6⟩
  · obtain ⟨_, r, h5, h6⟩ := bind_ok.1 h
    obtain ⟨d, hd, rfl⟩ := onFrame_ok.1 h5
    cases hd
    have hdepth : r4.frame.depth = r3.frame.depth := by
      obtain ⟨moves, he, -, rfl⟩ := add_ok.1 h4
      cases he
      rfl
    have hcapped := a3.sound.capped
    have hdrop : (r4.frame.depth.pop 1).current = r3.frame.depth.current - 1 ∧
        (r4.frame.depth.pop 1).highest = r3.frame.depth.highest := hdepth ▸ ⟨rfl, rfl⟩
    obtain ⟨g4, a4, hk, htaken⟩ := Advances.jumpSet (d := r4.frame.depth.pop 1) a3.sound h4 rfl
      a3.sound.ground nofun (absurd rfl) (by omega) (by omega) (by omega)
    exact ⟨_, g4, a4, ⟨hk, htaken.trans (Int.add_zero _)⟩, hdrop.1, h6⟩

/-- A definition takes what was pushed for its parameters and captured variables. -/
theorem Paced.definition {s r t : Session} {d : Draft} {name : Option Symbol} {isMethod : Bool}
    {line : UInt32} (hv : v.has .subroutineConsumesStack = true)
    (h : Paced v False (d.parameters.length + d.captured.length) 0 s r)
    (hlevel : ∀ f ∈ d.finish.preorder, f.Level v)
    (hr : emit v (.subroutine name d.finish isMethod) line r = .ok ((), t)) :
    Paced v False (if name.isNone then 1 else 0) 0 s t := by
  intro g hs hlow _
  obtain ⟨g1, a1, c1⟩ := h g hs hlow False.elim
  obtain ⟨k, hadd⟩ := discard_ok.1 hr
  obtain ⟨moves, he, -, ht⟩ := add_ok.1 hadd
  have hmoves : dip moves ≤ d.parameters.length + d.captured.length ∧
      net moves = (if name.isNone then 1 else 0) - (d.parameters.length + d.captured.length) := by
    cases he
    cases name <;> simp [Frame.effect, hv, dip, net, Move.change, Draft.finish] <;> omega
  obtain ⟨g2, a2, c2⟩ := Advances.put a1.sound ht rfl rfl hlevel he (by omega)
  exact ⟨g2, a1.trans a2, by omega⟩

/-- The frame of a subroutine whose body is lowered in its outermost scope. -/
theorem within_level {child d : Draft} {x : Emit Unit} {s t : Session} {n : Nat} {captures : Bool}
    (hc : child.Begun n captures)
    (hx : ∀ ⦃s0 r a u⦄, Opens .block s0 r → x r = .ok (a, u) → Paced v True 0 0 s0 u)
    (h : within child x s = .ok (d, t)) :
    Paced v False 0 0 s t ∧ d.parameters.length = n ∧ (captures = false → d.captured = []) ∧
      ∀ f ∈ d.finish.preorder, f.Level v := by
  obtain ⟨u, hu, rfl, rfl⟩ := within_ok.1 h
  -- The frame before its outermost scope is opened.
  have hopens : Opens .block { s with frame := { child with scopes := [] } }
    { s with frame := child } := ⟨rfl, hc.marks, rfl, ⟨rfl, rfl, fun _ => rfl⟩, rfl⟩
  obtain ⟨hkeeps, hlevel⟩ := (hx hopens hu).frame hc.code rfl hc.depth
  refine ⟨fun g hs _ _ => ⟨g, .same hs rfl rfl (.refl _) fun _ hk => hk, by simp⟩, ?_,
    fun hclosed => ?_, hlevel⟩
  · rw [hkeeps.parameters, hc.parameters]
  · have hnone : child.enclosing = none := by simpa [hclosed] using hc.enclosing
    rw [hkeeps.captured hnone, hc.captured hnone]

theorem subroutine_paced {r : RoutineCode} (isMethod : Bool)
    (hv : v.has .subroutineConsumesStack = true) (hnames : ∀ c ∈ r.params, c.Declares)
    (hparams : ∀ c ∈ r.params, ∀ child, Yields v (c.param child))
    (hbody : ∀ body r' r'', NodeCode.blockBody r.body r' = .ok (body, r'') →
      Levels v body) : Runs (Paced v False) 0 0 (subroutine v loc r isMethod) := by
  intro s _ t h
  obtain ⟨symbol, child, child', body, d, r0, r1, r2, r3, r4, r5, hnew, h2, h3, h4, ⟨r', hb⟩, h5, h6⟩ :=
    subroutine_ok h
  have hinside : ∀ ⦃s0 r a u⦄, Opens .block s0 r → (do
      body
      leaveScope v false
      frameExit v) r = .ok (a, u) → Paced v True 0 0 s0 u := by
    intro s0 r a u ho hr
    simp only [bind_ok] at hr
    obtain ⟨_, r1', hr1, _, r2', hr2, hr3⟩ := hr
    exact (Paced.scope ho (hbody _ _ _ hb hr1) hr2).andThen (frameExit_paced hr3)
  have hbegun := (Draft.Begun.afterParameters hnames (.newChild hnew) h3).reserveSlot (v := v) isMethod
  obtain ⟨hwithin, hcount, hcaptured, hlevel⟩ := within_level hbegun hinside h5
  have hparameters : Paced v False _ 0 s r3 :=
    Ledger.after (.still h2.still) (parameters_runs child hparams h3)
  have hall := Ledger.before (Ledger.before hparameters (.still h4.still)) hwithin
  exact Paced.definition hv (hall.mono (by simp [hcount, hcaptured rfl]) (Int.le_refl _) id) hlevel h6

theorem closure_paced {body : NodeCode} (isMethod : Bool)
    (hv : v.has .subroutineConsumesStack = true) (hnames : ∀ c ∈ cs, c.Declares)
    (hparams : ∀ c ∈ cs, ∀ child, Yields v (c.param child))
    (hbody : Levels v (closureBody v body)) : Yields v (closure v loc cs body isMethod) := by
  intro s _ t h
  simp only [Emit.closure, bind_ok] at h
  obtain ⟨child, r1, h1, child', r2, h2, d, r3, h3, _, r4, h4, h5⟩ := h
  have hinside : ∀ ⦃s0 r a u⦄, Opens .block s0 r → (do
      closureBody v body
      leaveScope v false) r = .ok (a, u) → Paced v True 0 0 s0 u := by
    intro s0 r a u ho hr
    obtain ⟨_, r', hr1, hr2⟩ := bind_ok.1 hr
    exact Paced.scope ho (hbody hr1) hr2
  obtain ⟨hwithin, hcount, -, hlevel⟩ :=
    within_level (.afterParameters hnames (.newChild h1) h2) hinside h3
  have hnew : Paced v False 0 0 s r1 := .still (newChild_neutral _ h1).still
  have hcaptured : Runs (Paced v False) (d.captured.length * 1) 0
      (d.captured.forM fun symbol => readName v symbol.name loc) :=
    .forM _ (fun _ _ => (readName_straight _ _).runs) (by decide)
  have hparameters := Ledger.before (Ledger.after hnew (parameters_runs child hparams h2)) hwithin
  have hall := Ledger.trans hparameters (hcaptured h4)
  refine Paced.definition hv (hall.mono ?_ ?_ id) hlevel h5
  · simp [hcount]
  · omega

end Adhoc
