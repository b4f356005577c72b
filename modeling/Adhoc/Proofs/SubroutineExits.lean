import Adhoc.Proofs.SafeProgram

namespace Adhoc

variable {o : Options} {sources : Sources} {depth : Nat} {p : Program} {source : String}
  {script : Script}

/-- Without the handlers that log exceptions, every subroutine has a return that no jump up to it
passes, and every path through the subroutine stays up to it. -/
theorem compile_subroutines_return (h : p.compile o sources depth source = .ok script)
    (hlogs : o.logsExceptions = false) : ∀ f ∈ framesOf script.frame.code,
      ∃ r, f.ReturnsAt r ∧ ∀ i, Relation.ReflTransGen f.Successor 0 i → i ≤ r := by
  obtain ⟨t, hinvariant, -, hframe, -⟩ := Program.compile_sound h
  have hexits := hinvariant.exits hlogs (.of_empty rfl rfl)
  intro f hf
  rw [hframe] at hf
  obtain ⟨r, hr⟩ := hexits.frames f hf
  exact ⟨r, hr, fun i => hr.reached_le⟩

/-- `function f(a) { while (a) { if (a) { return a; } } return; a; } var g = (b) => { if (b) { return b; } };` -/
def returningRoutines : Program where
  body := [
    .function {} ⟨some (.ident {} "f"), [.ident {} "a"], .stmt (.block {} [
      .whileLoop {} (.ident {} "a") (.block {} [
        .ifElse {} (.ident {} "a") (.block {} [.returnValue {} (some (.ident {} "a"))]) none]),
      .returnValue {} none,
      .expression {} (.ident {} "a")])⟩,
    .declare {} [⟨{}, some (.ident {} "g"), some (.arrow {} ⟨none, [.ident {} "b"], .stmt (.block {} [
      .ifElse {} (.ident {} "b") (.block {} [.returnValue {} (some (.ident {} "b"))]) none])⟩)⟩]]

/-- The places of all returns are given. The first function goes on behind its last one. -/
theorem returningRoutines_return : ∃ script,
    returningRoutines.compile {} noSources 0 "main" = .ok script ∧
    (framesOf script.frame.code).map (fun f => (f.code.length,
      f.code.findIdxs (·.operation.isReturn))) = [(14, [5, 11]), (8, [3, 7])] ∧
    ∀ f ∈ framesOf script.frame.code,
      ∃ r, f.ReturnsAt r ∧ ∀ i, Relation.ReflTransGen f.Successor 0 i → i ≤ r := by
  exact exists_ok_and (by decide +kernel) fun _ h => compile_subroutines_return h rfl

end Adhoc
