import Adhoc.Proofs.FollowExpr

namespace Adhoc

open Emit

variable {v : Version} {folder : Option String} {a b : Deeds} {child : Draft} {s t : Session}
  {isMethod : Bool} {c : NodeCode} {cs : List ExprCode} {k : WithTop ℕ} {loc : Loc}

theorem closure_steps (hparams : FollowsIn v folder a (parameters cs))
    (hbody : Follows v folder b (closureBody v c)) (hs : s.Settled folder)
    (h : closure v loc cs c isMethod s = .ok ((), t)) :
    ∃ ds fs u w x y child, Course v ds s u ∧ a.Bound v ds s.frame u.frame ∧
      child.Ready v u.symbols (some s.frame.slots.locals) ∧ Course v fs (u.at child) w ∧
      b.Bound v fs child w.frame ∧ leaveScope v false w = .ok ((), x) ∧
      (x.frame.captured.forM fun c => readName v c.name loc) (x.at u.frame) = .ok ((), y) ∧
      Course v [] (x.at u.frame) y ∧
      emit v (.subroutine none x.frame.finish isMethod) loc.line y = .ok ((), t) := by
  simp only [Emit.closure, bind_ok] at h
  obtain ⟨child, r1, h1, child', u, h2, d, r3, h3, _, y, h4, h5⟩ := h
  obtain ⟨rfl, hchild⟩ := Draft.Ready.newChild h1
  obtain ⟨ds, hdefaults, hds⟩ := hparams.follows child hs h2
  have hsettled := hdefaults.widens.settled hs
  have hprepared := hparams.prepares hs hchild h2
  obtain ⟨x, hwithin, rfl, rfl⟩ := within_ok.1 h3
  obtain ⟨_, w, hw, hleave⟩ := bind_ok.1 hwithin
  obtain ⟨fs, hcourse, hfs⟩ := hbody (s := u.at child') hsettled hw
  have hread : Follows v none 0 (x.frame.captured.forM fun c => readName v c.name loc) :=
    .forM _ fun _ _ => .readName _ _
  obtain ⟨gs, hreads, hgs⟩ := hread (fun _ hf => nomatch hf) h4
  rw [hgs.eq_nil] at hreads
  exact ⟨ds, fs, u, w, x, y, child', hdefaults, hds, hprepared, hcourse, hfs, hleave, h4, hreads, h5⟩

theorem closure_follows (loc : Loc) (isMethod : Bool)
    (hparams : FollowsIn v folder a (parameters cs))
    (hbody : Follows v folder b (closureBody v c)) :
    Follows v folder (a + .called b.calls) (closure v loc cs c isMethod) := by
  intro s _ t hs h
  obtain ⟨ds, fs, u, w, x, y, child, hdefaults, hds, hchild, hcourse, hfs, hleave, hread, hreads, hemit⟩ :=
    closure_steps hparams hbody hs h
  refine ⟨ds, (Course.nil s).closure hdefaults hchild.toPrepared hcourse hleave hread hreads hemit,
    hds.calling ?_⟩
  have hreading : Follows v none 0 (x.frame.captured.forM fun c => readName v c.name loc) :=
    .forM _ fun _ _ => .readName _ _
  obtain ⟨gs, -, hgs⟩ := hreading (fun _ hf => nomatch hf) hread
  obtain ⟨depth, rfl⟩ := emit_ok hemit
  have hbody := add_zero b.calls ▸ hfs.code.trans (leaveScope_leaves hleave).brings
  have hslots := hchild.takesByName (hcourse.byName.trans (leaveScope_byName hleave))
  exact zero_add b.calls ▸ hgs.code.trans (.subroutine rfl hbody hchild.code hslots)

theorem definition_course {body : Emit Unit} {symbol : Symbol} {line : UInt32}
    (hbody : Follows v folder a body) (hs : s.Settled folder) (hc : child.Ready v s.symbols none)
    (h : defineBody v line isMethod symbol body child s = .ok ((), t)) :
    Course v [] s t ∧ s.frame.Brings v a.calls t.frame := by
  obtain ⟨d, r, h1, hemit⟩ := bind_ok.1 h
  obtain ⟨y, hwithin, rfl, rfl⟩ := within_ok.1 h1
  simp only [bind_ok] at hwithin
  obtain ⟨_, w, hw, _, x, hleave, hexit⟩ := hwithin
  obtain ⟨es, hcourse, hes⟩ := hbody (s := s.at child) hs hw
  have hsettled : x.Settled folder := by
    obtain ⟨c, -, -, hat⟩ := leaveScope_closes hleave
    rw [hat]
    exact hcourse.widens.settled hs
  obtain ⟨fs, hlast, hfs⟩ := Follows.frameExit hsettled hexit
  refine ⟨(Course.nil s).definition hc.toPrepared hcourse hleave hexit hlast hemit, ?_⟩
  obtain ⟨depth, rfl⟩ := emit_ok hemit
  have hbody := (hes.code.trans (leaveScope_leaves hleave).brings).trans hfs.code
  have hslots := hc.takesByName
    ((hcourse.byName.trans (leaveScope_byName hleave)).trans hlast.byName)
  rw [show a.calls + 0 + (0 : Deeds).calls = a.calls from (add_zero _).trans (add_zero _)] at hbody
  exact .subroutine rfl hbody hc.code hslots

theorem named_course {x : Symbol} {name : String} (hx : x.name = Symbol.canonical name)
    (hbody : ∀ ⦃s body t⦄, NodeCode.blockBody c s = .ok (body, t) →
      t = s ∧ ∃ a, Follows v folder a body ∧ a.calls = k) (hs : s.Settled folder)
    (hknows : s.symbols.Knows x) (hchild : child.Ready v s.symbols none)
    (h : defineMember v loc isMethod x c child s = .ok ((), t)) :
    ∃ ds, Course v ds s t ∧
      (Deeds.members [name] + .called k).Bound v ds s.frame t.frame := by
  obtain ⟨scope, r1, h1, hrest⟩ := bind_ok.1 h
  obtain ⟨_, r2, h2, hrest⟩ := bind_ok.1 hrest
  obtain ⟨_, r3, h3, hrest⟩ := bind_ok.1 hrest
  obtain ⟨body, r4, h4, hrest⟩ := bind_ok.1 hrest
  have hr1 : r1 = s := by
    obtain ⟨d, hd, rfl⟩ := onFrame_ok.1 h1
    unfold Draft.scope at hd
    split at hd <;> cases hd
    rfl
  obtain ⟨-, hr2⟩ := require_ok.1 h2
  rw [hr2, hr1] at h3
  obtain ⟨ds, hmember, hds⟩ := FollowsKnowing.addMember hx hs hknows h3
  obtain ⟨hr4, a, hfollows, ha⟩ := hbody h4
  rw [hr4] at hrest
  have hwide := hmember.widens
  obtain ⟨hcourse, hbrings⟩ :=
    definition_course hfollows (hwide.settled hs) (hchild.mono hwide.symbols) hrest
  refine ⟨_, hmember.trans hcourse, ?_⟩
  rw [List.append_nil]
  exact hds.calling (ha ▸ hbrings)

/-- A named function or method up to the check that its name is new. -/
def routineHead (v : Version) (loc : Loc) (r : RoutineCode) (isMethod : Bool) (name : String) :
    Emit (Symbol × Draft) := do
  let symbol ← symbol name
  let child ← newChild v false
  if isMethod then
    let isNew ← define .method symbol
    require isNew loc (.methodDefined symbol.name)
  let child ← parameters r.params child
  pure (symbol, reserveSlot v isMethod child)

theorem subroutine_head {r : RoutineCode} {name : String} (hname : r.id.bind Expr.ident? = some name) :
    subroutine v loc r isMethod = (do
      let (symbol, child) ← routineHead v loc r isMethod name
      defineMember v loc isMethod symbol r.body child) := by
  simp only [subroutine_eq, hname, routineHead, defineRoutine, bind_assoc]
  cases isMethod <;> simp only [bind_assoc, pure_bind, if_true, Bool.false_eq_true, if_false]

/-- The defaults of the parameters have the course up to the check. -/
theorem head_course {r : RoutineCode} {name : String} {x : Symbol}
    (hparams : FollowsIn v folder a (parameters r.params)) (hs : s.Settled folder)
    (h : routineHead v loc r isMethod name s = .ok ((x, child), t)) :
    x.name = Symbol.canonical name ∧ t.symbols.Knows x ∧ child.Ready v t.symbols none ∧
      ∃ ds, Course v ds s t ∧ a.Bound v ds s.frame t.frame := by
  obtain ⟨y, r0, h0, hrest⟩ := bind_ok.1 h
  obtain ⟨hknows, hy, hwide0, hframe⟩ := symbol_ok h0
  obtain ⟨child0, r1, h1, hrest⟩ := bind_ok.1 hrest
  obtain ⟨hr1, hchild⟩ := Draft.Ready.newChild h1
  rw [hr1] at hrest
  obtain ⟨r2, hbefore, hrun⟩ : ∃ r2, r0.Rests r2 ∧ (do
      let child ← parameters r.params child0
      Pure.pure (y, reserveSlot v isMethod child)) r2 = .ok ((x, child), t) := by
    split at hrest
    · obtain ⟨isNew, r2, h2, hnew⟩ := bind_ok.1 hrest
      obtain ⟨_, r3, h3, hrun⟩ := bind_ok.1 hnew
      obtain ⟨-, rfl⟩ := require_ok.1 h3
      simp only [Emit.define, Except.ok.injEq, Prod.mk.injEq] at h2
      obtain ⟨-, rfl⟩ := h2
      refine ⟨_, ?_, hrun⟩
      exact .of_frame ⟨.refl _, fun _ hf => hf⟩ rfl
    · exact ⟨r0, .of_frame (.refl _) rfl, hrest⟩
  obtain ⟨child', r3, h3, hpure⟩ := bind_ok.1 hrun
  obtain ⟨hpair, rfl⟩ := pure_ok.1 hpure
  obtain ⟨rfl, rfl⟩ := Prod.mk.inj hpair
  have hrests : s.Rests r2 := ⟨hwide0.trans hbefore.widens, hframe ▸ hbefore.remains,
    hframe ▸ hbefore.slots, hframe ▸ hbefore.bare, hframe ▸ hbefore.captured, hframe ▸ hbefore.code,
    hframe ▸ hbefore.moments⟩
  have hs2 := hrests.widens.settled hs
  obtain ⟨ds, hcourse, hds⟩ := hparams.follows child0 hs2 h3
  have hready := hparams.prepares hs2 (hchild.mono hbefore.widens.symbols) h3
  refine ⟨hy, hknows.mono (hbefore.widens.trans hcourse.widens).symbols, hready.reserveSlot isMethod, _,
    (Course.of_step hrests.step).trans hcourse, ?_⟩
  rw [← zero_add a]
  exact (Deeds.Bound.nil (.of_code hrests.code)).append hds

theorem subroutine_follows {r : RoutineCode} (loc : Loc) (isMethod : Bool)
    (hparams : FollowsIn v folder a (parameters r.params))
    (hbody : ∀ ⦃s body t⦄, NodeCode.blockBody r.body s = .ok (body, t) →
      t = s ∧ ∃ a, Follows v folder a body ∧ a.calls = k) :
    Follows v folder (.members (r.id.bind Expr.ident?).toList + (.called k + a))
      (subroutine v loc r isMethod) := by
  cases hname : r.id.bind Expr.ident? with
  | none =>
    rw [subroutine_eq, hname]
    exact .reject
  | some name =>
    rw [subroutine_head hname]
    intro s _ t hs h
    obtain ⟨⟨x, child⟩, r1, hhead, hrun⟩ := bind_ok.1 h
    obtain ⟨hx, hknows, hready, ds, hcourse, hds⟩ := head_course hparams hs hhead
    obtain ⟨es, hcourse', hes⟩ := named_course hx hbody (hcourse.widens.settled hs) hknows hready hrun
    rw [← add_assoc, add_comm]
    exact ⟨_, hcourse.trans hcourse', hds.append hes⟩

theorem openClass_follows (loc : Loc) (c : ClassCode) (name : String) (isStatic : Bool) :
    Follows v folder 0 (openClass v loc c name isStatic) := by
  refine .ite ?_ ?_
  · exact .own (.own (.splitPath _) fun _ => .pure _) fun _ => .emit rfl
  · refine .own (.symbol _) fun _ => .own ?_ fun _ => .emit rfl
    unfold baseClass
    split
    · split
      · exact .reject
      · exact .ite (.pathSymbols _) (.own (.symbol _) fun _ => .pure _)
    · exact .ite (.pathSymbols _) (.own (.symbol _) fun _ => .pure _)

theorem classDef_follows {c : ClassCode} (loc : Loc) (isStatic : Bool)
    (h : Follows v folder a (runAll c.body)) :
    Follows v folder a.inModule (classDef v loc c isStatic) := by
  unfold classDef
  cases c.id.pathName? with
  | none => exact .reject
  | some name =>
    refine .own .require fun _ => ?_
    intro s _ t hs hr
    simp only [bind_ok] at hr
    obtain ⟨_, r1, h1, _, r2, h2, _, r3, h3, _, r4, h4, _, r5, h5, _, r6, h6, h7⟩ := hr
    obtain rfl := pushScope_ok.1 h1
    have hin : Follows v folder a (do
        enterModule name
        openClass v loc c name isStatic
        runAll c.body) :=
      .own (.change fun s => .of_frame ⟨.refl _, fun _ hf => hf⟩ rfl) fun _ =>
        .own (openClass_follows _ _ _ _) fun _ => h
    have hout : Follows v folder 0 (do
        leaveModule
        setState v .exit) :=
      .own (.change fun s => .of_frame ⟨.refl _, fun _ hf => hf⟩ rfl) fun _ => .setState _
    obtain ⟨ds, hcourse, hds⟩ := hin (s := s.open .module) hs
      (bind_ok.2 ⟨_, _, h2, bind_ok.2 ⟨_, _, h3, h4⟩⟩)
    have hmodule := (Course.nil s).module hcourse h5
    obtain ⟨es, hexit, hes⟩ := hout (hmodule.widens.settled hs) (bind_ok.2 ⟨_, _, h6, h7⟩)
    have hin : a.Bound v ds s.frame r4.frame := ⟨hds.may, hds.must, hds.code.calls, hds.code.frames⟩
    rw [← add_zero (Deeds.inModule _)]
    exact ⟨_, hmodule.trans hexit, (hin.inModule (leaveModuleScope_leaves h5).brings).append hes⟩

end Adhoc
