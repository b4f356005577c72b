import Adhoc.Proofs.PaceTree
import Adhoc.Proofs.StructuredJumps

namespace Adhoc

open Emit List

/-- On every path through the frame the depth at an instruction is the same and within the bounds of
the frame, every instruction finds its operands, and nothing but a `throw` or a return ends the path
early: one with its value since version 11 and with an empty stack before, as at the end. -/
structure Frame.Steady (v : Version) (f : Frame) : Prop where
  agree : ∀ {i d d'}, f.Reached v i d → f.Reached v i d' → d = d'
  bounds : ∀ {i d}, f.Reached v i d → i ≤ f.code.length ∧ 0 ≤ d ∧ d ≤ f.header.depth.highest
  ends : ∀ {d}, f.Reached v f.code.length d → d = 0
  returns : ∀ {i d ins}, f.Reached v i d → f.code[i]? = some ins → ins.operation.isReturn = true →
    d = if 11 ≤ v.number then 1 else 0
  enough : ∀ {i d ins}, f.Reached v i d → f.code[i]? = some ins → ins.operation.isReturn = false →
    ∃ moves, ins.operation.effect v = .ok moves ∧ dip moves ≤ d
  goesOn : ∀ {i d ins}, f.Reached v i d → f.code[i]? = some ins → ins.operation.isReturn = false →
    ins.operation ≠ .simple .throw → ∃ q, f.Step v (i, d) q

theorem Operation.exists_onward {v : Version} {op : Operation} {moves : List Move}
    (he : op.effect v = .ok moves) (hr : op.isReturn = false) (ht : op ≠ .simple .throw)
    (hj : ∀ target, op ≠ .jump .always target) : op.onward? v = some moves := by
  unfold onward?
  split
  · exact absurd rfl (hj _)
  · exact absurd rfl ht
  iterate 2 cases hr
  rw [he]
  rfl

/-- If every jump of the frame has a target, all paths have the depths of the profile. -/
theorem Frame.Level.steady {v : Version} {f : Frame} (h : f.Level v) (hvalid : f.JumpsValid) :
    f.Steady v := by
  obtain ⟨hhigh, g, hstart, hend, hsteady⟩ := h
  have hdepth : ∀ {i d}, f.Reached v i d → i ≤ f.code.length ∧ g.depth i = d :=
    fun hr => hr.depth hstart hsteady
  have hat : ∀ {i d ins}, f.Reached v i d → f.code[i]? = some ins → ins.Steady v
      f.header.depth.highest d (g.depth (i + 1)) (g.taken i) fun t x => t ≤ f.code.length ∧ g.depth t = x :=
    fun hr hi => (hdepth hr).2 ▸ hsteady _ _ hi
  refine ⟨fun hr hr' => (hdepth hr).2.symm.trans (hdepth hr').2, fun {i d} hr => ?_,
    fun hr => (hdepth hr).2.symm.trans hend, fun hr hi => (hat hr hi).returns,
    fun hr hi => (hat hr hi).enough, fun {i d ins} hr hi hreturn hthrow => ?_⟩
  · have hle := (hdepth hr).1
    refine ⟨hle, ?_⟩
    rcases Nat.lt_or_eq_of_le hle with hlt | rfl
    · have hins := hat hr (getElem?_eq_getElem hlt)
      exact ⟨hins.nonneg, hins.capped⟩
    · rw [← (hdepth hr).2, hend]
      exact ⟨le_rfl, hhigh⟩
  · obtain ⟨moves, heffect, -⟩ := (hat hr hi).enough hreturn
    by_cases hj : ∀ target, ins.operation ≠ .jump .always target
    · exact ⟨_, .onward hi (Operation.exists_onward heffect hreturn hthrow hj)⟩
    · -- A jump that is always taken has a target.
      simp only [not_forall, not_not] at hj
      obtain ⟨target, hop⟩ := hj
      obtain ⟨t, rfl, -⟩ := hvalid ins (mem_of_getElem? hi) target (by rw [hop]; rfl)
      obtain ⟨line, op⟩ := ins
      cases hop
      exact ⟨_, .aside hi⟩

theorem Part.Core.parts_expr {wide : Prop} {v : Version} {e : Expr} (h : (Part.expr e).Core wide) :
    ∀ q ∈ e.parts v, ∃ e', q = .expr e' := by
  rcases h with h | h <;> cases h <;> simp only [Expr.parts] <;> grind

/-- Nothing in the update of a core loop is a `continue`. -/
theorem Part.Core.quietUpdates {wide : Prop} {p : Part} (h : p.Core wide) (lib : Library)
    (v : Version) : QuietUpdates lib v p := by
  have hsilent : ∀ {q e}, Continues lib v q → q = .expr e → ¬ q.Core wide := by
    intro q e hc
    induction hc generalizing e with
    | here => exact nofun
    | part hq _ ih =>
      rintro rfl hcore
      obtain ⟨e', he'⟩ := hcore.parts_expr _ hq
      exact ih he' (hcore.part hq)
    | included => exact nofun
  intro loc init test update body ho hc
  have hloop : CoreStmt wide (.forLoop loc init test (some update) body) := h.occurs ho
  cases hloop with
  | forLoop _ _ _ _ hu => exact hsilent hc rfl (.inr (hu _ rfl))

theorem Program.code_paced {o : Options} {sources : Sources} {depth : Nat} {p : Program}
    (hcore : p.Core False) (hv : o.version.has .subroutineConsumesStack = true)
    (hlogs : o.logsExceptions = false) {s t : Session}
    (h : p.code (o.context sources depth) s = .ok ((), t)) : Paced o.version True 0 0 s t := by
  have hcontext : (o.context sources depth).logsExceptions = false := by
    rw [Options.logsExceptions_context, hlogs]
  have hversion : (o.context sources depth).version.has .subroutineConsumesStack = true := by
    rw [Options.version_context, hv]
  rw [Program.code_context, hlogs] at h
  simp only [bind_ok] at h
  obtain ⟨_, r1, h1, _, r2, h2, _, r3, h3, h4⟩ := h
  have hbody : Runs (Paced o.version True) 0 0
      (Emit.body o.version false (stmtCodes (o.context sources depth) p.body)) := by
    refine runAll_paced ?_
    rw [stmtCodes_eq, forall_mem_map]
    intro s hs
    have hrun := (Stmt.isPaced hversion hcontext s (hcore s hs)).run
    rwa [Options.version_context] at hrun
  exact (Paced.scope (pushScope_opens h1) (hbody h2) h3).andThen (setExit_paced h4).lift

/-- In a compiled core program, for a version since 8 and without logged exceptions, every path
through every frame has the depth that the compiler counted on. While that is below `2 ^ 31`, it is
also counted in 32-bit words. -/
theorem compile_paths_steady {o : Options} {sources : Sources} {depth : Nat} {p : Program}
    {source : String} {script : Script} (hcore : p.Core False) (hv : 8 ≤ o.version.number)
    (hlogs : o.logsExceptions = false) (h : p.compile o sources depth source = .ok script) :
    (∀ f ∈ script.frame.preorder, f.Steady o.version) ∧
      ∀ {op line d i e}, Draft.add o.version op line d = .ok (i, e) → d.depth.Marked →
        0 ≤ e.depth.lowest → e.depth.highest < 2 ^ 31 →
        Draft.addByHand o.version op line d = .ok (i, e) := by
  obtain ⟨t, ht, rfl⟩ := Program.compile_ok h
  have hconsumes : o.version.has .subroutineConsumesStack = true := (Version.has_iff rfl _).2 hv
  obtain ⟨-, hlevel⟩ := (Program.code_paced hcore hconsumes hlogs ht).frame rfl rfl rfl
  have hquiet : ∀ s ∈ p.body, QuietUpdates (o.library sources) o.version (.stmt s) :=
    fun s hs => Part.Core.quietUpdates (p := .stmt s) (hcore s hs) _ _
  have hready : Ready (o.library sources).includeFolder (Session.start o source) :=
    ⟨.of_no_marks rfl, fun _ hf => hf⟩
  have hvalid := (Tiles.frame (Program.code_lays depth hquiet hready ht) rfl rfl).1
  exact ⟨fun f hf => (hlevel f hf).steady (hvalid f hf), Draft.addByHand_of_add⟩

/-- A function with a choice in it, and a loop around a switch that goes on with the loop or leaves it
from within another. -/
def searchLoop : Program where
  body := [
    .function {} ⟨some (.ident {} "f"), [.ident {} "a"], .stmt (.block {} [
      .returnValue {} (some (.conditional {} (.ident {} "a")
        (.logical {} .and (.ident {} "a") (.ident {} "f")) (.literal {} (.int 2))))])⟩,
    .labeled {} "l" (.forLoop {}
      (some (.stmt (.declare {} [⟨{}, some (.ident {} "i"), some (.literal {} (.int 0))⟩])))
      (some (.call {} (.ident {} "f") [.ident {} "i"]))
      (some (.update {} .increment false (.ident {} "i")))
      (.block {} [.switch {} (.ident {} "i") [
        ⟨{}, some (.literal {} (.int 1)), [.continueLoop {} (some "l")]⟩,
        ⟨{}, none, [.whileLoop {} (.ident {} "i") (.breakOut {} (some "l"))]⟩]]))]

theorem searchLoop_core : searchLoop.Core False := by
  have hname : ∀ name, CoreExpr False (.ident {} name) := fun _ => .ident _ _
  simp only [Program.Core, searchLoop, forall_mem_cons]
  refine ⟨.function _ (by simp [Expr.ident?]) (.block _ (forall_mem_singleton.2 ?_)),
    .labeled _ _ (.forLoop _ ?_ ?_ ?_ ?_ (.block _ (forall_mem_singleton.2 ?_))), nofun⟩
  · refine .returnValue _ fun _ h => Option.some.inj h ▸ ?_
    exact .conditional _ (hname _) (.logical _ (by decide) (hname _) (hname _)) (.literal _ _)
  · exact fun n h => ⟨_, _, (Option.some.inj h).symm⟩
  · rintro s ⟨⟩
    refine .declare _ (by simp) ?_
    simp only [forall_mem_singleton, Option.some.injEq, forall_eq']
    exact .literal _ _
  · rintro e ⟨⟩
    exact .call _ (by decide) (hname _) (forall_mem_singleton.2 (hname _))
  · rintro e ⟨⟩
    exact .step _ _ _ _ _
  · refine .switch _ (hname _) ?_ ?_ <;> simp
    · exact .literal _ _
    · exact ⟨.continueLoop _ _, .whileLoop _ (hname _) (.breakOut _ _)⟩

theorem searchLoop_paths_steady : searchLoop.Core False ∧
    ∃ script, searchLoop.compile { version := ⟨10, by decide⟩ } noSources 0 "main" = .ok script ∧
      ∀ f ∈ script.frame.preorder, f.Steady ⟨10, by decide⟩ := by
  have hok : (searchLoop.compile { version := ⟨10, by decide⟩ } noSources 0 "main").isOk = true := by
    decide +kernel
  obtain ⟨script, h⟩ := exists_ok hok
  exact ⟨searchLoop_core, script, h, (compile_paths_steady searchLoop_core (by decide) rfl h).1⟩

end Adhoc
