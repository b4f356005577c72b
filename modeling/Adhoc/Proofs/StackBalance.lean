import Adhoc.Proofs.Core
import Adhoc.Proofs.CountProgram

namespace Adhoc

open Emit List

theorem Depth.lowest_of_dip {d : Depth} {moves : List Move} (hd : d.lowest = 0) (hc : d.current = 0)
    (h : dip moves ≤ 0) : (d.follow moves).lowest = 0 := by
  have hle := follow_lowest d moves
  have hge := le_follow_lowest d moves
  omega

theorem owed_eq (v : Version) (code : List Instruction) :
    owed v code = if 8 ≤ v.number then 0 else operandsOf code := by
  have hspan : v.has .subroutineConsumesStack = true ↔ 8 ≤ v.number := Version.has_iff rfl v
  simp only [owed, hspan]

/-- In a compiled core program no frame ever takes more values off the stack than it has put there,
and the script ends at the depth at which it started, apart from the operands of its definitions
before version 8. As long as less than `2 ^ 31` values are on the stack, every instruction is appended
with the same depth if that is kept in 32-bit words. -/
theorem compile_depth_balanced {o : Options} {sources : Sources} {depth : Nat} {p : Program}
    {source : String} {script : Script} (hcore : p.Core True)
    (h : p.compile o sources depth source = .ok script) :
    (∀ f ∈ script.frame.preorder, f.header.depth.lowest = 0) ∧
      script.frame.header.depth.current =
        (if 8 ≤ o.version.number then 0 else operandsOf script.frame.code) ∧
      ∀ {op line d i e}, Draft.add o.version op line d = .ok (i, e) → d.depth.Marked →
        0 ≤ e.depth.lowest → e.depth.highest < 2 ^ 31 →
        Draft.addByHand o.version op line d = .ok (i, e) := by
  obtain ⟨t, ht, rfl⟩ := Program.compile_ok h
  have hproper : ∀ s ∈ p.body, (Part.stmt s).IsProper (o.context sources depth) True :=
    fun s hs => Part.Core.proper (p := .stmt s) (hcore s hs) _ _ _
  have htallied := Program.code_counts True depth ht
  obtain ⟨moves, hdepth, hdip, hnet⟩ := htallied.moves hproper
  have hstart : owed o.version (Session.start o source).frame.code.toList = 0 := by
    rw [owed_eq]
    split <;> rfl
  refine ⟨List.forall_mem_cons.2 ⟨?_, fun f hf => ?_⟩, ?_, Draft.addByHand_of_add⟩
  · change t.frame.depth.lowest = 0
    rw [hdepth]
    exact Depth.lowest_of_dip rfl rfl hdip
  · exact (htallied.frames hproper trivial f hf).resolve_left fun hf => nomatch hf
  · change t.frame.depth.current = _
    rw [hdepth, Depth.follow_current, hnet, hstart, ← owed_eq]
    change 0 + (0 + (owed o.version t.frame.code.toList - 0)) = _
    rw [Int.zero_add, Int.zero_add, Int.sub_zero]
    rfl

/-- A function with two parameters, and a closure that captures a variable, called under a handler. -/
def guardedCalls : Program where
  body := [
    .function {} ⟨some (.ident {} "add"), [.ident {} "a", .ident {} "b"], .stmt (.block {}
      [.returnValue {} (some (.binary {} .add (.ident {} "a") (.ident {} "b")))])⟩,
    .declare {} [⟨{}, some (.ident {} "x"), some (.literal {} (.int 1))⟩],
    .tryCatch {} (.block {} [
        .expression {} (.assign {} .assign (.ident {} "x") (.call {} (.ident {} "add")
          [.ident {} "x", .function {} ⟨none, [.ident {} "y"], .stmt (.block {}
            [.returnValue {} (some (.logical {} .and (.ident {} "x") (.ident {} "y")))])⟩]))])
      (some ⟨{}, none, .block {} [.throw {} (.ident {} "x")]⟩) none]

theorem guardedCalls_core : guardedCalls.Core True := by
  have hadd : CoreExpr True (.binary {} .add (.ident {} "a") (.ident {} "b")) :=
    .binary _ _ (.ident _ _) (.ident _ _)
  have hand : CoreExpr True (.logical {} .and (.ident {} "x") (.ident {} "y")) :=
    .logical _ (by decide) (.ident _ _) (.ident _ _)
  have hbody : ∀ {e : Expr}, CoreExpr True e →
      CoreBody True (.stmt (.block {} [.returnValue {} (some e)])) := fun he =>
    .block _ (forall_mem_singleton.2 (.returnValue _ fun _ h => Option.some.inj h ▸ he))
  have hclosure : CoreExpr True (.function {} ⟨none, [.ident {} "y"], .stmt (.block {}
      [.returnValue {} (some (.logical {} .and (.ident {} "x") (.ident {} "y")))])⟩) :=
    .function _ (by simp [Expr.ident?]) (hbody hand)
  simp only [Program.Core, guardedCalls, forall_mem_cons]
  refine ⟨.function _ (by simp [Expr.ident?]) (hbody hadd), ?_, ?_, fun _ h => by cases h⟩
  · refine .declare _ (by simp) ?_
    simp only [forall_mem_singleton, Option.some.injEq, forall_eq']
    exact .literal _ _
  · refine .tryCatch _ trivial (.block _ (forall_mem_singleton.2 ?_)) (fun c hc => ?_)
      fun _ h => by cases h
    · refine .assignment _ (.assign _ rfl (.ident _ _) (.call _ (by decide) (.ident _ _) ?_))
      exact forall_mem_cons.2 ⟨.ident _ _, forall_mem_singleton.2 hclosure⟩
    · obtain rfl := Option.some.inj hc
      exact .block _ (forall_mem_singleton.2 (.throw _ (.ident _ _)))

theorem guardedCalls_depth_balanced :
    guardedCalls.Core True ∧
    ∃ script, guardedCalls.compile { version := ⟨5, by decide⟩ } noSources 0 "main" = .ok script ∧
      (∀ f ∈ script.frame.preorder, f.header.depth.lowest = 0) ∧
      script.frame.header.depth.current = operandsOf script.frame.code := by
  have hok : (guardedCalls.compile { version := ⟨5, by decide⟩ } noSources 0 "main").isOk = true := by
    decide +kernel
  obtain ⟨script, h⟩ := exists_ok hok
  obtain ⟨hlowest, hcurrent, -⟩ := compile_depth_balanced guardedCalls_core h
  exact ⟨guardedCalls_core, script, h, hlowest, hcurrent⟩

end Adhoc
