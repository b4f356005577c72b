import Adhoc.Proofs.Accounts
import Adhoc.Proofs.Counting

namespace Adhoc

open Emit List Draft

variable {fit nested : Prop} {v : Version} {loc : Loc} {c left right object property : ExprCode}
  {cs : List ExprCode} {quasis : List Quasi} {n : Nat} {body : NodeCode} {d : ClassCode}

theorem templateParts_tallied {s t : Session}
    (h : ∀ c ∈ cs.take quasis.length, Counts fit nested v 1 0 c.value)
    (hr : templateParts v quasis cs s = .ok (n, t)) : Tallied fit nested v n 0 s t := by
  induction quasis generalizing cs s n with
  | nil =>
    obtain ⟨rfl, rfl⟩ := pure_ok.1 hr
    exact .of_eq rfl rfl (.refl _)
  | cons q quasis ih =>
    have htext : Counts fit nested v 1 0 (do
        let symbol ← stringSymbol q.text q.hexEscaped
        emit v (.named .stringConst symbol) q.loc.line) :=
      .skip (.stringSymbol _ _) fun _ => .emit _ rfl rfl ⟨rfl, Int.le_refl _⟩
    cases cs with
    | nil =>
      simp only [templateParts, bind_ok, pure_ok] at hr
      obtain ⟨symbol, r1, h1, _, r2, h2, m, r3, h3, rfl, rfl⟩ := hr
      have hfirst := htext (bind_ok.2 ⟨symbol, r1, h1, h2⟩)
      exact Ledger.mono (Ledger.trans hfirst (ih (by simp) h3)) (by simp) (by omega)
    | cons c cs =>
      simp only [length_cons, take_succ_cons, forall_mem_cons] at h
      simp only [templateParts, bind_ok, pure_ok] at hr
      obtain ⟨symbol, r1, h1, _, r2, h2, _, r3, h3, m, r4, h4, rfl, rfl⟩ := hr
      have hfirst := htext (bind_ok.2 ⟨symbol, r1, h1, h2⟩)
      have hvalue := Ledger.trans hfirst (h.1 h3)
      exact Ledger.mono (Ledger.trans hvalue (ih h.2 h4)) (by simp) (by omega)

theorem template_counts (h : ∀ c ∈ cs.take quasis.length, Counts fit nested v 1 0 c.value) :
    Counts fit nested v 1 0 (template v loc quasis cs) := by
  unfold template
  split
  · exact (text_straight _ _ _).runs
  · exact .counting (fun _ _ _ hr => templateParts_tallied h hr) fun n =>
      (stringPush_straight n _).runs

theorem taggedParts_tallied {s t : Session}
    (h : ∀ c ∈ cs, ∀ ⦃s n t⦄, c.part s = .ok (n, t) → Tallied fit nested v n 0 s t)
    (hr : taggedParts cs s = .ok (n, t)) : Tallied fit nested v n 0 s t := by
  induction cs generalizing s n with
  | nil =>
    obtain ⟨rfl, rfl⟩ := pure_ok.1 hr
    exact .of_eq rfl rfl (.refl _)
  | cons c cs ih =>
    rw [forall_mem_cons] at h
    simp only [taggedParts, bind_ok, pure_ok] at hr
    obtain ⟨n, r1, h1, m, r2, h2, rfl, rfl⟩ := hr
    exact Ledger.mono (Ledger.trans (h.1 h1) (ih h.2 h2)) (by simp) (by omega)

theorem tagged_counts
    (h : ∀ c ∈ cs, ∀ ⦃s n t⦄, c.part s = .ok (n, t) → Tallied fit nested v n 0 s t) :
    Counts fit nested v 1 0 (tagged v loc cs) :=
  .counting (fun _ _ _ hr => taggedParts_tallied h hr) fun n => (stringPush_straight n _).runs

theorem coalesce_counts (hl : Counts fit nested v 1 0 left.kept)
    (hr : Counts fit nested v 1 0 right.value) :
    Counts fit nested v 1 0 (coalesce v loc left right) := by
  refine .skip .require fun _ => ?_
  refine .push hl fun _ => ?_
  refine .seq (b := 1) (d := 0) (jump_counts .ifNil _) (fun jump => ?_) (by decide)
  exact .before hr fun _ => .before (patchHere_counts _) fun _ => .warn _

theorem logical_counts (op : LogicalOp) (hl : Counts fit nested v 1 0 left.kept)
    (hr : Counts fit nested v 1 0 right.value) :
    Counts fit nested v 1 0 (logical v loc op left right) := by
  unfold logical
  split
  · exact coalesce_counts hl hr
  refine .push hl fun _ => ?_
  have hlast : ∀ jump : Nat, Counts fit nested v 1 0 (do
      right.value
      patchHere jump) := fun jump => .before hr fun _ => patchHere_counts _
  -- The old instructions leave the left value for a `POP`, the new ones take it away.
  cases hv : v.has .newLogicalInstructions with
  | true =>
    refine .seq (a := -1) (c := 1) ?_ (fun jump => hlast jump) (by decide)
    cases op <;> simp only [logicalJump, hv, if_true] <;> exact jump_counts _ _
  | false =>
    refine .seq (a := 0) (b := 0) (c := 1) (d := 1) ?_ (fun jump => ?_) (by decide)
    · cases op <;> simp only [logicalJump, hv] <;> exact jump_counts _ _
    · exact .seq pop_straight.runs (fun _ => hlast jump) (by decide)

theorem dropDepth_counts : Counts fit nested v (-1) 1 (onFrame (dropDepth 1)) := by
  intro s _ t hr
  obtain ⟨d, hd, rfl⟩ := onFrame_ok.1 hr
  cases hd
  exact .append [] [.pop 1] (by simp) (fun _ h => nomatch h) rfl rfl (by decide)
    ⟨rfl, rfl, fun _ => rfl⟩

theorem conditional_counts {test consequent alternate : ExprCode}
    (ht : Counts fit nested v 1 0 test.value) (hc : Counts fit nested v 1 0 consequent.referred)
    (ha : Counts fit nested v 1 0 alternate.value) :
    Counts fit nested v 1 0 (conditional v test consequent alternate) := by
  have hlast : ∀ j k : Nat, Counts fit nested v 1 0 (do
      patchHere j
      alternate.value
      patchHere k) := fun j k =>
    .after (patchHere_counts _) fun _ => .before ha fun _ => patchHere_counts _
  refine .push ht fun _ => ?_
  refine .seq (b := 1) (d := 0) (jump_counts .ifFalse _) (fun j => ?_) (by decide)
  refine .push hc fun _ => ?_
  refine .after (jump_counts .always _) fun k => ?_
  dsimp only
  split
  · exact .seq pop_straight.runs (fun _ => hlast j k) (by decide)
  · exact .seq dropDepth_counts (fun _ => hlast j k) (by decide)

theorem binaryAssign_counts (op : AssignOp) (hv : fit → v.has .binaryAssign = true) :
    Counts fit nested v (-1) 2 (binaryAssign v op loc) := by
  refine .refit (binaryAssign_straight op loc).runs fun hf => ?_
  simp [hv hf]

theorem arrayPattern_counts {declares : Bool} (hv : fit → v.has .newListAssign = true)
    (h : ∀ c ∈ cs, ∀ isLast, Counts fit nested v 1 0 (c.element declares isLast)) :
    Counts fit nested v (-1) 1 (arrayPattern v loc cs declares) := by
  refine .skip .require fun _ => ?_
  refine .seq (b := -1 - cs.length) (d := cs.length + 1) (patternElements_runs h)
    (fun hasRest => ?_) ⟨by omega, by decide, by omega⟩
  split
  · refine .seq (a := -cs.length) (c := cs.length + 1) ?_ (fun _ => pop_straight.runs)
      ⟨by omega, by omega, by omega⟩
    refine .emit _ rfl rfl ⟨?_, ?_⟩
    · simp [net, Move.change]
    · simp [dip, Move.change]
      omega
  · rename_i hnew
    exact .refit (.neutral (.pure _)) fun hf => absurd (hv hf) hnew

theorem staticValue_counts {name : String} (op : AssignOp)
    (hv : fit → op = .assign ∨ v.has .binaryAssign = true)
    (hr : Counts fit nested v 1 0 right.value)
    (hstore : Counts fit nested v (-1) 1 (left.store v true)) :
    Counts fit nested v 0 0 (staticValue v loc name op left right) := by
  unfold staticValue
  split
  · split
    · exact .push hr fun _ => hstore
    · refine .push (pushName_straight _ _ _).runs fun _ => ?_
      exact .push hr fun _ => assignPop_straight.runs
  · rename_i hop
    have hb : fit → v.has .binaryAssign = true := fun hf => (hv hf).resolve_left (by simpa using hop)
    refine .skip .require fun _ => ?_
    refine .push (pushName_straight _ _ _).runs fun _ => ?_
    refine .push hr fun _ => ?_
    exact .seq (binaryAssign_counts op hb) (fun _ => pop_straight.runs) (by decide)

theorem staticAssignment_counts {declarationLoc : Loc} (op : AssignOp)
    (hv : fit → op = .assign ∨ v.has .binaryAssign = true)
    (hr : Counts fit nested v 1 0 right.value)
    (hstore : left.name?.isSome → Counts fit nested v (-1) 1 (left.store v true)) :
    Counts fit nested v 0 0 (staticAssignment v loc declarationLoc op left right) := by
  unfold staticAssignment
  cases hname : left.name? with
  | none => exact .reject
  | some name =>
    refine .skip (.symbol _) fun symbol => ?_
    refine .after (.emit _ rfl rfl ⟨rfl, Int.le_refl _⟩) fun _ => ?_
    refine .skip (.discard (.define _ _)) fun _ => ?_
    refine .skip (addMember_neutral _) fun _ => ?_
    exact staticValue_counts op hv hr (hstore (by simp [hname]))

theorem defineAttribute_counts (name : String) (hv : fit → v.has .attributeDefinePops = true) :
    Counts fit nested v (-1) 1 (defineAttribute v name loc) :=
  .refit (defineAttribute_straight name loc).runs fun hf => ⟨by simp [hv hf], Int.le_refl _⟩

theorem attributeName_counts (name : String) (hv : fit → v.has .attributeDefinePops = true) :
    Counts fit nested v 0 0 (attributeName v name loc) :=
  .refit (attributeName_straight name loc).runs fun hf => ⟨by simp [hv hf], Int.le_refl _⟩

theorem attributeAssignment_counts (hv : fit → v.has .attributeDefinePops = true)
    (hr : Counts fit nested v 1 0 right.value) :
    Counts fit nested v 0 0 (attributeAssignment v loc left right) := by
  refine .skip .require fun _ => ?_
  cases left.name? with
  | none => exact .reject
  | some name =>
    exact .push hr fun _ => defineAttribute_counts name hv

theorem classDef_counts (isStatic : Bool) (h : ∀ c ∈ d.body, Counts fit nested v 0 0 c.run) :
    Counts fit nested v 0 0 (classDef v loc d isStatic) := by
  unfold classDef
  cases d.id.pathName? with
  | none => exact .reject
  | some name =>
    refine .skip .require fun _ => .after (pushScope_counts _) fun _ => ?_
    refine .after (enterModule_straight _).runs fun _ => ?_
    refine .after (openClass_straight _ _ _ _).runs fun _ => ?_
    refine .after (runAll_runs h) fun _ => .after leaveModuleScope_counts fun _ => ?_
    exact .after leaveModule_straight.runs fun _ => setExit_straight.runs

theorem staticClass_counts (h : ∀ c ∈ d.body, Counts fit nested v 0 0 c.run) :
    Counts fit nested v 0 0 (staticClass v loc d) :=
  .ite (classDef_counts true h) .reject

/-- A definition takes what was pushed for its parameters and captured variables, or owes it. -/
theorem Tallied.subroutine {s r t : Session} {d : Draft} {name : Option Symbol} {isMethod : Bool}
    {line : UInt32} (h : Tallied fit nested v (d.parameters.length + d.captured.length) 0 s r)
    (hframes : fit → nested → ∀ f ∈ d.finish.preorder, f.header.depth.lowest = 0)
    (hr : emit v (.subroutine name d.finish isMethod) line r = .ok ((), t)) :
    Tallied fit nested v (if name.isNone then 1 else 0) 0 s t := by
  obtain ⟨k, hr⟩ := discard_ok.1 hr
  obtain ⟨moves, he, -, rfl⟩ := add_ok.1 hr
  cases he
  have hcode : (r.frame.code.push ⟨line, .subroutine name d.finish isMethod⟩).toList =
      r.frame.code.toList ++ [⟨line, .subroutine name d.finish isMethod⟩] := by simp
  have howed : owed v (r.frame.code.push ⟨line, .subroutine name d.finish isMethod⟩).toList =
      owed v r.frame.code.toList + (if v.has .subroutineConsumesStack then 0
        else (d.parameters.length : Int) + d.captured.length) := by
    rw [hcode]
    cases hv : v.has .subroutineConsumesStack <;>
      simp [owed, hv, operandsOf, Operation.operands, finish]
  refine ⟨⟨h.keeps.parameters, h.keeps.enclosing, h.keeps.captured⟩, fun hf => ?_, ?_,
    fun hf hn f hmem => ?_⟩
  · obtain ⟨ms, hd, hl, hnet⟩ := h.moves hf
    refine ⟨ms ++ d.finish.effect v name.isNone, ?_, ?_, ?_⟩
    · rw [Depth.follow_append, ← hd]
    · rw [dip_append, hnet]
      have := h.owed_le
      cases hv : v.has .subroutineConsumesStack <;> cases name <;>
        simp [Frame.effect, hv, dip, Move.change, finish] <;> omega
    · rw [net_append, hnet]
      dsimp only
      rw [howed]
      cases hv : v.has .subroutineConsumesStack <;> cases name <;>
        simp [Frame.effect, hv, net, Move.change, finish] <;> omega
  · dsimp only
    rw [howed]
    have := h.owed_le
    split <;> omega
  · dsimp only at hmem
    rw [hcode, framesOf_eq, flatMap_append, mem_append, ← framesOf_eq] at hmem
    rcases hmem with hmem | hmem
    · exact h.frames hf hn f hmem
    · simp only [flatMap_cons, flatMap_nil, append_nil, Instruction.frames,
        Operation.frames] at hmem
      exact .inr (hframes hf hn f hmem)

theorem within_tallied {child d : Draft} {x : Emit Unit} {s t : Session} {captures : Bool}
    (hc : child.Begun n captures) (hx : Counts (fit ∧ nested) nested v 0 0 x)
    (h : within child x s = .ok (d, t)) :
    Tallied fit nested v 0 0 s t ∧ d.parameters.length = n ∧ (captures = false → d.captured = []) ∧
      (fit → nested → ∀ f ∈ d.finish.preorder, f.header.depth.lowest = 0) := by
  obtain ⟨u, hu, rfl, rfl⟩ := within_ok.1 h
  have hbody := hx hu
  refine ⟨.of_eq rfl rfl (.refl _), ?_, fun hclosed => ?_, fun hf hn f hmem => ?_⟩
  · rw [hbody.keeps.parameters, hc.parameters]
  · have hnone : child.enclosing = none := by simpa [hclosed] using hc.enclosing
    rw [hbody.keeps.captured hnone, hc.captured hnone]
  · simp only [finish, Frame.preorder, mem_cons] at hmem
    rcases hmem with rfl | hmem
    · obtain ⟨ms, hd, hl, -⟩ := hbody.moves ⟨hf, hn⟩
      dsimp only at hd ⊢
      rw [hd, hc.depth]
      have := Depth.le_follow_lowest {} ms
      have := Depth.follow_lowest {} ms
      simp only at *
      omega
    · have hold := hbody.frames ⟨hf, hn⟩ hn f hmem
      dsimp only at hold
      rw [hc.code] at hold
      exact hold.resolve_left fun hf => by cases hf

theorem subroutine_counts {r : RoutineCode} (isMethod : Bool) (hnames : ∀ c ∈ r.params, c.Declares)
    (hparams : ∀ c ∈ r.params, ∀ child, Counts fit nested v 1 0 (c.param child))
    (hbody : ∀ body r' r'', NodeCode.blockBody r.body r' = .ok (body, r'') →
      Counts (fit ∧ nested) nested v 0 0 body) :
    Counts fit nested v 0 0 (subroutine v loc r isMethod) := by
  intro s _ t h
  obtain ⟨symbol, child, child', body, d, r0, r1, r2, r3, r4, r5, hnew, h2, h3, h4, ⟨r', hb⟩, h5, h6⟩ :=
    subroutine_ok h
  have hbegun := (Begun.afterParameters hnames (.newChild hnew) h3).reserveSlot (v := v) isMethod
  have hinside : Counts (fit ∧ nested) nested v 0 0 (do
      body
      leaveScope v false
      frameExit v) := by
    refine .after (hbody _ _ _ hb) fun _ => ?_
    exact .after (leaveScope_counts _) fun _ => frameExit_straight.runs
  obtain ⟨hwithin, hcount, hcaptured, hframes⟩ := within_tallied hbegun hinside h5
  have hparameters := Ledger.trans (.of_eq h2.code h2.depth h2.keeps)
    (parameters_runs child hparams h3)
  have hmember := Ledger.trans hparameters (.of_eq h4.code h4.depth h4.keeps)
  refine Tallied.subroutine (Ledger.mono (Ledger.trans hmember hwithin) ?_ ?_) hframes h6
  · simp [hcount, hcaptured rfl]
  · omega

/-- A closure is a value; what it captures is pushed and taken away again. -/
theorem closure_counts (isMethod : Bool) (hnames : ∀ c ∈ cs, c.Declares)
    (hparams : ∀ c ∈ cs, ∀ child, Counts fit nested v 1 0 (c.param child))
    (hbody : Counts (fit ∧ nested) nested v 0 0 (closureBody v body)) :
    Counts fit nested v 1 0 (closure v loc cs body isMethod) := by
  intro s _ t h
  simp only [Emit.closure, bind_ok] at h
  obtain ⟨child, r1, h1, child', r2, h2, d, r3, h3, _, r4, h4, h5⟩ := h
  have hnew := newChild_neutral _ h1
  have hinside : Counts (fit ∧ nested) nested v 0 0 (do
      closureBody v body
      leaveScope v false) := .after hbody fun _ => leaveScope_counts _
  obtain ⟨hwithin, hcount, -, hframes⟩ :=
    within_tallied (.afterParameters hnames (.newChild h1) h2) hinside h3
  have hcaptured : Counts fit nested v (d.captured.length * 1) 0
      (d.captured.forM fun symbol => readName v symbol.name loc) :=
    .forM _ (fun _ _ => (readName_straight _ _).runs) (by decide)
  have hparameters := Ledger.trans (.of_eq hnew.code hnew.depth hnew.keeps)
    (parameters_runs child hparams h2)
  have hall := Ledger.trans (Ledger.trans hparameters hwithin) (hcaptured h4)
  refine Tallied.subroutine (Ledger.mono hall ?_ ?_) hframes h5
  · simp [hcount]
  · omega

theorem closureBody_counts (hs : ∀ c, body = .stmt c → Counts fit nested v 0 0 c.run)
    (he : ∀ c, body = .expr c → Counts fit nested v 1 0 c.value) :
    Counts fit nested v 0 0 (closureBody v body) := by
  cases body with
  | stmt c => exact .after (hs c rfl) fun _ => frameExit_straight.runs
  | expr c =>
    exact .push (he c rfl) fun _ => (handOff_straight _).runs

theorem awaitedTask_counts
    (hcall : ∀ loc callee arguments, c.expr = .call loc callee arguments →
      Counts (fit ∧ nested) nested v 1 0 c.value)
    (hother : (∀ loc callee arguments, c.expr ≠ .call loc callee arguments) →
      Counts fit nested v 1 0 c.value) : Counts fit nested v 1 0 (awaitedTask v c) := by
  unfold awaitedTask
  split
  · rename_i hc
    refine closure_counts _ (fun _ h => nomatch h) (fun _ h => nomatch h) ?_
    refine closureBody_counts (fun _ h => nomatch h) fun c' h => ?_
    cases h
    exact hcall _ _ _ hc
  · rename_i hc
    exact hother hc

theorem await_counts (h : Counts fit nested v 1 0 (awaitedTask v c)) :
    Counts fit nested v 1 0 (await v loc c) := by
  refine .push (member_straight _ _ _).runs fun _ => ?_
  refine .push h fun _ => ?_
  refine .seq (b := 0) (d := 1) (call_straight 1 _).runs (fun _ => ?_) (by decide)
  refine .skip (.temporary _) fun task => ?_
  refine .push (pushName_straight _ _ _).runs fun _ => ?_
  refine .seq (a := -2) (b := 1) (c := 2) (d := 0) (.emit _ rfl rfl (by decide)) (fun _ => ?_)
    (by decide)
  refine .push (member_straight _ _ _).runs fun _ => ?_
  refine .push (readTemporary_straight _ _).runs fun _ => ?_
  exact .before (call_straight 1 _).runs fun _ => .warn _

end Adhoc
