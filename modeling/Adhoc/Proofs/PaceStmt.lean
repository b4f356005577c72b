import Adhoc.Proofs.PaceExpr

namespace Adhoc

open Emit List Option

variable {v : Version} {loc : Loc} {test : ExprCode} {body : StmtCode} {label : Option String}
  {s t : Session} {g : Profile} {cases : List CaseCode} {jumps : List (Option Nat)}

theorem inScope_paced (h : Levels v body.run) : Levels v (body.inScope v) := by
  unfold StmtCode.inScope
  split
  iterate 3 exact h
  intro s _ t hr
  simp only [bind_ok] at hr
  obtain ⟨_, r1, h1, _, r2, h2, h3⟩ := hr
  exact Paced.scope (pushScope_opens h1) (h h2) h3

/-- If the test fails, it leads on with an empty stack. -/
theorem loopTest_paced {test : Option ExprCode} {exit : Option Nat}
    (ht : ∀ c, test = some c → Yields v c.kept) (hs : s.frame.Profiled v g)
    (hempty : s.frame.depth.current = 0) (h : loopTest v test s = .ok (exit, t)) :
    ∃ g', Advances v s g t g' ∧ t.frame.depth.current = 0 ∧
      ∀ k ∈ exit.toList, k < t.frame.code.size ∧ g'.taken k = 0 := by
  cases test with
  | none =>
    obtain ⟨rfl, rfl⟩ := pure_ok.1 h
    exact ⟨g, .still hs (.refl _), hempty, by simp⟩
  | some c =>
    simp only [loopTest, bind_ok, pure_ok] at h
    obtain ⟨_, r, h1, k, r', h2, rfl, rfl⟩ := h
    obtain ⟨g1, a1, c1⟩ := ht c rfl h1 g hs hs.ground False.elim
    obtain ⟨g2, a2, ⟨hk, htaken⟩, c2⟩ := Advances.test a1.sound (.inr rfl) h2 (by omega)
    refine ⟨g2, a1.trans a2, by omega, ?_⟩
    simp only [toList_some, mem_singleton, forall_eq]
    exact ⟨hk, by omega⟩

theorem forLoop_paced {init : Option NodeCode} {test update : Option ExprCode}
    (hi : Runs (Paced v False) 0 0 (forInit init))
    (ht : ∀ c, test = some c → Yields v c.kept)
    (hu : ∀ c, update = some c → Runs (Paced v False) 0 0 c.steps)
    (hb : Levels v body.run) : Levels v (forLoop v loc init test update body label) := by
  intro s _ t h g hs hlow hempty
  simp only [forLoop, bind_ok, here_ok] at h
  obtain ⟨_, r1, h1, _, _, h2, _, r2, ⟨rfl, rfl⟩, exit, r3, h3, _, _, h4, _, r4, ⟨rfl, rfl⟩,
    ks, r4', h5, _, r5, h6, h⟩ := h
  have ho := pushScope_opens h1
  have a1 := ho.advances hs
  have c1 : r1.frame.depth.current = 0 := ho.depth ▸ hempty trivial
  obtain ⟨g2, a2, c2⟩ := hi h2 g a1.sound a1.sound.ground False.elim
  obtain ⟨g3, a3, c3, hexit⟩ := loopTest_paced ht a2.sound (by omega) h3
  obtain ⟨g4, a4, c4⟩ := hb h4 g3 a3.sound a3.sound.ground fun _ => c3
  obtain ⟨a5, hdepth5⟩ := Advances.turn a4.sound (le_rfl) (a4.sound.here.trans (by omega)) h5 h6
  obtain ⟨r6, g6, a6, c6, h⟩ : ∃ r6 g6, Advances v r5 g4 r6 g6 ∧ r6.frame.depth.current = 0 ∧ (do
      jumpTo v r2.frame.code.size loc.line
      endLoop v exit) r6 = .ok ((), t) := by
    cases update with
    | none => exact ⟨r5, g4, .still a5.sound (.refl _), by rw [hdepth5]; omega, h⟩
    | some update =>
      obtain ⟨_, r6, h7, h⟩ := bind_ok.1 h
      obtain ⟨g6, a6, c6⟩ := hu update rfl h7 g4 a5.sound a5.sound.ground False.elim
      exact ⟨r6, g6, a6, by rw [c6, hdepth5]; omega, h⟩
  obtain ⟨_, r7, h8, h9⟩ := bind_ok.1 h
  obtain ⟨_, h8⟩ := discard_ok.1 h8
  -- What follows the start of the loop keeps the depth there and the jump out of it.
  have a46 := (a4.trans a5).trans a6
  have hstart := (a3.trans a46).depth _ (le_rfl)
  obtain ⟨g7, a7, -, c7⟩ := Advances.leap a6.sound h8 fun x hx => by
    cases hx
    exact ⟨(a3.trans a46).size, by rw [hstart, a2.sound.here]; omega⟩
  obtain ⟨g8, a8, c8⟩ := endLoop_paced a7.sound (by omega)
    (fun k hk => ((a46.trans a7).taken k (hexit k hk).1).trans (hexit k hk).2) h9
  exact ⟨g8, ((((a1.trans a2).trans a3).trans a46).trans a7).trans a8, by have := hempty trivial; omega⟩

theorem whileLoop_paced (ht : Yields v test.kept)
    (hb : Levels v body.run) : Levels v (whileLoop v test body label) := by
  intro s _ t h g hs hlow hempty
  simp only [whileLoop, bind_ok, here_ok] at h
  obtain ⟨_, _, h1, _, r1, ⟨rfl, rfl⟩, exit, r2, h2, _, r3, h3, back, r4, h4, ks, r4', h5, _, r5, h6,
    h7⟩ := h
  have ho := pushScope_opens h1
  have a1 := ho.advances hs
  have c1 : r1.frame.depth.current = 0 := ho.depth ▸ hempty trivial
  have hkept : ∀ c, (if isTrue test.expr then none else some test) = some c →
      Yields v c.kept := by
    intro c hc
    split at hc <;> cases hc
    exact ht
  obtain ⟨g2, a2, c2, hexit⟩ := loopTest_paced hkept a1.sound c1 h2
  obtain ⟨g3, a3, c3⟩ := inScope_paced hb h3 g2 a2.sound a2.sound.ground fun _ => c2
  have hstart := (a2.trans a3).depth _ (le_rfl)
  obtain ⟨g4, a4, -, c4⟩ := Advances.leap a3.sound h4 fun x hx => by
    cases hx
    exact ⟨(a2.trans a3).size, by rw [hstart, a1.sound.here]; omega⟩
  obtain rfl : back = r3.frame.code.size := (add_ok.1 h4).choose_spec.2.1
  have hback := (a4.depth _ (le_rfl)).trans a3.sound.here
  obtain ⟨a5, hdepth5⟩ := Advances.turn a4.sound a4.size (by omega) h5 h6
  obtain ⟨g6, a6, c6⟩ := endLoop_paced a5.sound (by rw [hdepth5]; omega)
    (fun k hk => ((a3.trans a4).taken k (hexit k hk).1).trans (hexit k hk).2) h7
  exact ⟨g6, ((((a1.trans a2).trans a3).trans a4).trans a5).trans a6, by have := hempty trivial; omega⟩

theorem doWhile_paced (hb : Levels v body.run)
    (ht : Yields v test.kept) : Levels v (doWhile v body test label) := by
  intro s _ t h g hs hlow hempty
  simp only [doWhile, bind_ok, here_ok] at h
  obtain ⟨_, _, h1, _, r1, ⟨rfl, rfl⟩, _, _, h2, _, r2, ⟨rfl, rfl⟩, _, r3, h3, ks, r3', h4, _, r3'', h5,
    exit, r4, h6, _, r5, h7, h8⟩ := h
  have ho := pushScope_opens h1
  have a1 := ho.advances hs
  have c1 : r1.frame.depth.current = 0 := ho.depth ▸ hempty trivial
  obtain ⟨g2, a2, c2⟩ := inScope_paced hb h2 g a1.sound a1.sound.ground fun _ => c1
  obtain ⟨g3, a3, c3⟩ := ht h3 g2 a2.sound a2.sound.ground False.elim
  have hagain := (a3.depth _ (le_rfl)).trans a2.sound.here
  obtain ⟨a4, hdepth4⟩ := Advances.turn a3.sound a3.size (by omega) h4 h5
  obtain ⟨g5, a5, ⟨hk, htaken⟩, c5⟩ := Advances.test a4.sound (.inr rfl) h6 (by rw [hdepth4]; omega)
  obtain ⟨_, h7⟩ := discard_ok.1 h7
  have a25 := ((a2.trans a3).trans a4).trans a5
  have hstart := a25.depth _ (le_rfl)
  rw [hdepth4] at c5 htaken
  obtain ⟨g6, a6, -, c6⟩ := Advances.leap a5.sound h7 fun x hx => by
    cases hx
    exact ⟨a25.size, by rw [hstart, a1.sound.here]; omega⟩
  obtain ⟨g7, a7, c7⟩ := endLoop_paced a6.sound (by omega)
    (by simpa using (a6.taken exit hk).trans (by omega)) h8
  exact ⟨g7, ((a1.trans a25).trans a6).trans a7, by have := hempty trivial; omega⟩

theorem runAll_paced {cs : List StmtCode} (h : ∀ c ∈ cs, Levels v c.run) : Levels v (runAll cs) := by
  unfold runAll
  induction cs with
  | nil => exact Runs.lift (.neutral (.pure _))
  | cons c cs ih =>
    rw [forall_mem_cons] at h
    exact h.1.andThen fun _ => ih h.2

theorem caseTests_paced {subject equals : Symbol} {before after : Option UInt32}
    (ht : ∀ c ∈ cases, ∀ test, c.test = some test → Yields v test.value)
    (hs : s.frame.Profiled v g) (hempty : s.frame.depth.current = 0)
    (h : caseTests v subject equals before cases s = .ok ((jumps, after), t)) :
    ∃ g', Advances v s g t g' ∧ t.frame.depth.current = 0 ∧
      ∀ k, some k ∈ jumps → k < t.frame.code.size ∧ g'.taken k = 0 := by
  induction cases generalizing before jumps s g with
  | nil =>
    simp only [caseTests, pure_ok, Prod.mk.injEq] at h
    obtain ⟨⟨rfl, rfl⟩, rfl⟩ := h
    exact ⟨g, .still hs (.refl _), hempty, fun _ hk => (not_mem_nil hk).elim⟩
  | cons c cases ih =>
    rw [forall_mem_cons] at ht
    cases hc : c.test with
    | none =>
      simp only [caseTests, hc, bind_ok, require_ok, pure_ok, Prod.mk.injEq] at h
      obtain ⟨_, s, ⟨-, rfl⟩, ⟨jumps, after⟩, r, h1, ⟨rfl, rfl⟩, rfl⟩ := h
      simpa using ih ht.2 hs hempty h1
    | some test =>
      simp only [caseTests, hc, bind_ok, pure_ok, Prod.mk.injEq] at h
      obtain ⟨_, r1, h1, _, r2, h2, _, r3, h3, k, r4, h4, ⟨jumps, after⟩, r, h5, ⟨rfl, rfl⟩, rfl⟩ := h
      have hsubject : Paced v False 1 0 s r1 := (readTemporary_straight _ _).runs h1
      have hequals : Runs (Paced v False) (-1) 2 (emit v (.named .binary equals) c.loc.line) :=
        .emit _ rfl rfl ⟨rfl, Int.le_refl _⟩
      have htest : Paced v False 1 0 s r3 :=
        Ledger.mono (Ledger.trans (Ledger.trans hsubject (ht.1 test hc h2)) (hequals h3)) rfl (by decide)
      obtain ⟨g3, a3, c3⟩ := htest g hs hs.ground False.elim
      obtain ⟨g4, a4, ⟨hk, htaken⟩, c4⟩ := Advances.test a3.sound (.inl rfl) h4 (by omega)
      obtain ⟨g5, a5, c5, hjumps⟩ := ih ht.2 a4.sound (by omega) h5
      refine ⟨g5, (a3.trans a4).trans a5, c5, fun k' hk' => ?_⟩
      rcases mem_cons.1 hk' with hk' | hk'
      · cases hk'
        exact ⟨Nat.lt_of_lt_of_le hk a5.size, (a5.taken k hk).trans (by omega)⟩
      · exact hjumps k' hk'

theorem caseBodies_paced {toDefault : Nat}
    (hb : ∀ c ∈ cases, ∀ s ∈ c.consequent, Levels v s.run)
    (hs : s.frame.Profiled v g) (hempty : s.frame.depth.current = 0)
    (hjumps : ∀ o ∈ jumps, o.getD toDefault < s.frame.code.size ∧ g.taken (o.getD toDefault) = 0)
    (h : caseBodies toDefault cases jumps s = .ok ((), t)) :
    ∃ g', Advances v s g t g' ∧ t.frame.depth.current = 0 := by
  induction cases generalizing jumps s g with
  | nil =>
    obtain ⟨-, rfl⟩ := pure_ok.1 h
    exact ⟨g, .still hs (.refl _), hempty⟩
  | cons c cases ih =>
    rw [forall_mem_cons] at hb
    cases jumps with
    | nil =>
      obtain ⟨-, rfl⟩ := pure_ok.1 h
      exact ⟨g, .still hs (.refl _), hempty⟩
    | cons o jumps =>
      rw [forall_mem_cons] at hjumps
      simp only [caseBodies, bind_ok] at h
      obtain ⟨_, r1, h1, _, r2, h2, h3⟩ := h
      obtain ⟨a1, hdepth1⟩ := Advances.patchHere hs (hjumps.1.2.trans hempty.symm) h1
      have c1 : r1.frame.depth.current = 0 := hdepth1 ▸ hempty
      obtain ⟨g2, a2, c2⟩ := runAll_paced hb.1 h2 g a1.sound a1.sound.ground fun _ => c1
      have a12 := a1.trans a2
      obtain ⟨g3, a3, c3⟩ := ih hb.2 a2.sound (by omega) (fun o ho =>
        ⟨Nat.lt_of_lt_of_le (hjumps.2 o ho).1 a12.size,
          (a12.taken _ (hjumps.2 o ho).1).trans (hjumps.2 o ho).2⟩) h3
      exact ⟨g3, a12.trans a3, c3⟩

theorem switch_paced (hd : Yields v test.value)
    (ht : ∀ c ∈ cases, ∀ test, c.test = some test → Yields v test.value)
    (hb : ∀ c ∈ cases, ∀ s ∈ c.consequent, Levels v s.run) : Levels v (switch v loc test cases) := by
  intro s _ t h g hs hlow hempty
  simp only [switch, bind_ok] at h
  obtain ⟨_, r1, h1, subject, r2, h2, equals, r3, h3, ⟨jumps, dflt⟩, r4, h4, toDefault, r5, h5, _, r6, h6,
    h7⟩ := h
  have ho := pushScope_opens h1
  have a1 := ho.advances hs
  have c1 : r1.frame.depth.current = 0 := ho.depth ▸ hempty trivial
  obtain ⟨g2, a2, c2⟩ := newTemporary_runs hd h2 g a1.sound a1.sound.ground False.elim
  have hstill : Still r2 r3 := (Neutral.operatorSymbol _ _ h3).still
  have a3 := Advances.still a2.sound hstill
  obtain ⟨g4, a4, c4, hjumps⟩ := caseTests_paced ht a3.sound (by rw [hstill.depth]; omega) h4
  obtain ⟨g5, a5, ⟨hk, htaken⟩, c5⟩ := Advances.leap a4.sound h5 nofun
  have hall : ∀ o ∈ jumps, o.getD toDefault < r5.frame.code.size ∧ g5.taken (o.getD toDefault) = 0 := by
    rintro (_ | k) ho
    · exact ⟨hk, htaken.trans c4⟩
    · obtain ⟨hlt, hzero⟩ := hjumps k ho
      exact ⟨Nat.lt_of_lt_of_le hlt a5.size, (a5.taken k hlt).trans hzero⟩
  obtain ⟨g6, a6, c6⟩ := caseBodies_paced hb a5.sound (by omega) hall h6
  have hexit : ∀ k ∈ (if dflt.isSome then none else some toDefault).toList, g6.taken k = 0 := by
    intro k hk'
    split at hk' <;> simp only [toList_none, toList_some, not_mem_nil,
      mem_singleton] at hk'
    rw [hk', a6.taken _ hk]
    omega
  obtain ⟨g7, a7, c7⟩ := endLoop_paced a6.sound c6 hexit h7
  exact ⟨g7, ((((a1.trans a2).trans a3).trans a4).trans a5).trans (a6.trans a7),
    by have := hempty trivial; omega⟩

/-- A jump out of a scope is noted in it. -/
theorem escapes_paced : Levels v (breakOut v loc label) ∧
    Levels v (continueLoop v loc label) := by
  constructor <;> intro s _ t h <;>
    simp only [breakOut, continueLoop, bind_ok, frame_ok, require_ok] at h
  all_goals
    obtain ⟨_, s, ⟨rfl, rfl⟩, _, s, ⟨-, rfl⟩, k, r, h1, h2⟩ := h
    obtain ⟨_, h2⟩ := discard_ok.1 h2
    obtain ⟨d, hd, rfl⟩ := onFrame_ok.1 h2
    refine noted_paced h1 ?_
    simp only [Draft.noteBreak, Draft.noteContinue] at hd
    split at hd <;> cases hd
    · exact ⟨_, rfl, fun _ => .inl⟩
    · refine ⟨_, rfl, Draft.updateFirst_notes (fun c j hj => ?_) ‹_›⟩
      simp only [Scope.addBreak, Scope.addContinue] at hj
      split at hj <;> simp [Mark.notes, Scope.mark] at hj ⊢ <;> tauto

theorem labeled_paced {name : String}
    (h : ∀ loop, body.loop? = some loop → ∀ label, Levels v (loop label)) :
    Levels v (labeled loc name body) := by
  refine .skipThen .frame fun f => .skipThen .require fun _ => ?_
  cases hloop : body.loop? with
  | none => exact .reject
  | some loop => exact h loop hloop _

theorem returnedValue_paced (h : Yields v test.returned) : Levels v (returnedValue v test) := by
  have hspan : v.has .popOnValueReturn = true ↔ v.number ≤ 10 := by
    rw [Version.has, Bool.and_eq_true]
    exact ⟨fun h => of_decide_eq_true h.2,
      fun h => ⟨decide_eq_true v.supported.1, decide_eq_true h⟩⟩
  unfold returnedValue
  split
  · rename_i hv
    have hbare : Levels v (bareReturn v) :=
      bareReturn_paced (Nat.not_le.2 (Nat.lt_succ_of_le (hspan.1 hv)))
    intro s _ t hr
    obtain ⟨_, r1, h1, hr⟩ := bind_ok.1 hr
    obtain ⟨_, r2, h2, hr⟩ := bind_ok.1 hr
    have hpop : Paced v False (-1) 1 r1 r2 := pop_straight.runs h2
    have hdropped : Paced v False 0 0 s r2 := Ledger.mono (Ledger.trans (h h1) hpop) rfl (by decide)
    exact hdropped.lift.andThen (hbare.andThen (fun _ => hbare) hr)
  · rename_i hv
    exact handOff_paced (Nat.lt_of_not_le fun hle => hv (hspan.2 hle)) h

theorem returnValue_paced {argument : Option ExprCode}
    (h : ∀ c, argument = some c → Yields v c.returned) : Levels v (returnValue v argument) := by
  have hmark : Levels v markReturn := Runs.lift (.neutral markReturn_neutral)
  cases argument with
  | none => exact emptyReturn_paced.andThen fun _ => hmark
  | some c => exact (returnedValue_paced (h c rfl)).andThen fun _ => hmark

theorem block_paced {x : Emit Unit} (isEmpty : Bool) (hx : Levels v x) :
    Levels v (block v isEmpty x) := by
  intro s _ t h
  simp only [block, bind_ok] at h
  obtain ⟨_, r1, h1, _, r2, h2, h3⟩ := h
  exact Paced.scope (pushScope_opens h1) (hx h2) h3

theorem ifElse_paced {alternate : Option StmtCode} (ht : Yields v test.kept)
    (hc : Levels v body.run)
    (ha : ∀ c, alternate = some c → Levels v c.run) : Levels v (ifElse v test body alternate) := by
  intro s _ t h
  simp only [ifElse, bind_ok] at h
  obtain ⟨_, r1, h1, _, r2, h2, j, r3, h3, _, r4, h4, h⟩ := h
  suffices hinside : ∃ r, Paced v True 0 0 r1 r ∧ leaveScope v false r = .ok ((), t) by
    obtain ⟨r, hr, h⟩ := hinside
    exact Paced.scope (pushScope_opens h1) hr h
  -- The test and the first branch, with the jump around the branch.
  have hfirst : ∀ g, r1.frame.Profiled v g → r1.frame.depth.current = 0 → ∃ g4, Advances v r1 g r4 g4 ∧
      r4.frame.depth.current = 0 ∧ j < r4.frame.code.size ∧ g4.taken j = 0 := by
    intro g hs hempty
    obtain ⟨g2, a2, c2⟩ := ht h2 g hs hs.ground False.elim
    obtain ⟨g3, a3, ⟨hj, htaken⟩, c3⟩ := Advances.test a2.sound (.inr rfl) h3 (by omega)
    obtain ⟨g4, a4, c4⟩ := inScope_paced hc h4 g3 a3.sound a3.sound.ground fun _ => by omega
    exact ⟨g4, (a2.trans a3).trans a4, by omega, Nat.lt_of_lt_of_le hj a4.size,
      (a4.taken j hj).trans (by omega)⟩
  cases alternate with
  | some alternate =>
    simp only [bind_ok] at h
    obtain ⟨k, r5, h5, _, r6, h6, _, r7, h7, _, r8, h8, h9⟩ := h
    refine ⟨r8, fun g hs _ hempty => ?_, h9⟩
    obtain ⟨g4, a4, c4, hj, htaken⟩ := hfirst g hs (hempty trivial)
    obtain ⟨g5, a5, ⟨hk, htaken'⟩, c5⟩ := Advances.leap a4.sound h5 nofun
    obtain ⟨a6, hdepth6⟩ := Advances.patchHere a5.sound (by rw [a5.taken j hj]; omega) h6
    have c6 : r6.frame.depth.current = 0 := by rw [hdepth6, c5, c4]
    obtain ⟨g7, a7, c7⟩ :=
      inScope_paced (ha alternate rfl) h7 g5 a6.sound a6.sound.ground fun _ => c6
    obtain ⟨a8, hdepth8⟩ := Advances.patchHere a7.sound
      (by rw [a7.taken k (Nat.lt_of_lt_of_le hk a6.size)]; omega) h8
    exact ⟨g7, (((a4.trans a5).trans a6).trans a7).trans a8,
      by rw [hdepth8]; have := hempty trivial; omega⟩
  | none =>
    have hleave : ∀ {r5 r6}, Paced v False 0 0 r4 r5 → patchHere j r5 = .ok ((), r6) →
        Paced v True 0 0 r1 r6 := by
      intro r5 r6 hr5 h6 g hs _ hempty
      obtain ⟨g4, a4, c4, hj, htaken⟩ := hfirst g hs (hempty trivial)
      obtain ⟨g5, a5, c5⟩ := hr5 g4 a4.sound a4.sound.ground False.elim
      obtain ⟨a6, hdepth6⟩ := Advances.patchHere a5.sound (by rw [a5.taken j hj]; omega) h6
      exact ⟨g5, (a4.trans a5).trans a6, by rw [hdepth6]; have := hempty trivial; omega⟩
    dsimp only at h
    split at h
    · simp only [bind_ok] at h
      obtain ⟨k, r5, h5, _, r6, h6, _, r7, h7, h8⟩ := h
      -- The jump leads to what stands behind it.
      refine ⟨r7, hleave (fun g hs _ _ => ?_) h7, h8⟩
      obtain ⟨g5, a5, ⟨hk, htaken⟩, c5⟩ := Advances.leap hs h5 nofun
      obtain ⟨a6, hdepth6⟩ := Advances.patchHere a5.sound (by omega) h6
      exact ⟨g5, a5.trans a6, by rw [hdepth6]; omega⟩
    · obtain ⟨_, r5, h5, h6⟩ := bind_ok.1 h
      exact ⟨r5, hleave (.still (.refl _)) h5, h6⟩

theorem expressionStatement_paced
    (h : Runs (Paced v False) (if leavesValue test.expr then 1 else 0) 0 test.value) :
    Runs (Paced v False) 0 0 (expressionStatement v test) := by
  refine .seq (b := if leavesValue test.expr then -1 else 0)
    (d := if leavesValue test.expr then 1 else 0) h (fun _ => ?_) ⟨?_, by decide, ?_⟩
  · split
    · exact pop_straight.runs
    · exact .neutral (.pure _)
  all_goals split <;> decide

theorem throw_paced {line : UInt32} (h : Yields v test.value) : Runs (Paced v False) 0 0 (do
      test.value
      emit v (.simple .throw) line) :=
  .push h fun _ => .emit _ rfl rfl ⟨rfl, Int.le_refl _⟩

theorem declarator_paced {d : DeclaratorCode} {id : ExprCode} (hid : d.id = some id)
    (hname : id.name?.isSome = true)
    (hinit : ∀ c, d.init = some c → Yields v c.declared) :
    Runs (Paced v False) 0 0 (declarator v false d) := by
  obtain ⟨place, name, hexpr⟩ : ∃ place name, id.expr = .ident place name := by
    rw [ExprCode.name?] at hname
    cases he : id.expr <;> simp [he, Expr.ident?] at hname ⊢
  have hpush : Yields v (pushName v name place true) :=
    (pushName_straight _ _ _).runs
  simp only [declarator, hid]
  refine .skip .require fun _ => ?_
  simp only [declaredTarget, assignDeclared, hexpr, Bool.or_false]
  cases hd : d.init with
  | none =>
    have hdeclare : Neutral (declareName name) := declareName_neutral _
    simp only [isSome_none, Bool.false_eq_true, if_false]
    split
    · exact .neutral hdeclare
    · exact .skip hdeclare fun _ => .neutral (.pure _)
  | some init =>
    have hvalue := hinit init hd
    simp only [isSome_some, if_true]
    -- Both the name and its value are on the stack when the value is assigned.
    split
    · refine .push hvalue fun _ => ?_
      exact .push hpush fun _ => assignPop_straight.runs
    · have hname : Yields v (do
          pushName v name place true
          pure ()) := .last hpush fun _ => .pure _
      refine .push hname fun _ => ?_
      exact .push hvalue fun _ => assignPop_straight.runs

end Adhoc
