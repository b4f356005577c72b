import Adhoc.Proofs.Availability
import Mathlib

namespace Adhoc

variable {o : Options} {sources : Sources} {depth : Nat} {p : Program} {source : String}
  {script : Script}

/-- A script lists its warnings in their order, each of them once, and a warning that is about an
operation is listed exactly if the code has the operation. -/
theorem warnings_iff_operations (h : p.compile o sources depth source = .ok script) :
    script.warnings.Pairwise (·.ctorIdx < ·.ctorIdx) ∧ ∀ w c, Warning.opcode? w = some c →
      (w ∈ script.warnings ↔
        ∃ g ∈ script.frame.preorder, ∃ ins ∈ g.code, ins.operation.opcode = c) := by
  obtain ⟨t, -, rfl, U, bs, hevidence, -⟩ := Program.compile_evidenced h
  have horder : Warning.all.Pairwise (·.ctorIdx < ·.ctorIdx) := by decide
  refine ⟨horder.filter _, fun w c hw => ?_⟩
  have hall : w ∈ Warning.all := by cases w <;> decide
  have hwarned : w ∈ t.warnings ↔ w ∈ U := by
    rw [hevidence.warned, Set.empty_union]
    exact or_iff_right List.not_mem_nil
  have hbrought : t.frame.Has (·.opcode == c) ↔ w ∈ U := by
    rw [hevidence.brought hw, or_iff_right (Draft.not_has_of_empty rfl)]
  rw [List.mem_filter, List.contains_iff_mem, and_iff_right hall, hwarned, ← hbrought, Draft.has_finish]
  simp only [beq_iff_eq]

/-- `delegate d; a?.b ?? c;` -/
def optionalFallback : Program where
  body := [.delegate {} (.ident {} "d"), .expression {} (.logical {} .coalesce
    (.attribute {} (.ident {} "a") (.ident {} "b") true) (.ident {} "c"))]

theorem optionalFallback_warnings :
    ∃ script, optionalFallback.compile { version := ⟨12, by decide⟩ } noSources 0 "main" = .ok script ∧
      script.warnings = [.optional, .coalesce, .delegate] ∧
      (.coalesce ∈ script.warnings →
        ∃ g ∈ script.frame.preorder, ∃ ins ∈ g.code, ins.operation.opcode = .jumpIfNil) :=
  exists_ok_and (by decide +kernel) fun _ h => ((warnings_iff_operations h).2 .coalesce _ rfl).1

/-- From version 11 on, the classes and modules of a script are closed in its code as they are opened,
each under the number of those that are open around it, itself included, also where a subroutine
stands between them. All of them are closed when the compilation ends. -/
theorem modules_closed_as_opened (hv : 11 ≤ o.version.number)
    (h : p.compile o sources depth source = .ok script) :
    Nested 0 script.frame.brackets ∧
      ∃ t, p.code (o.context sources depth) (.start o source) = .ok ((), t) ∧
        t.frame.finish = script.frame ∧ t.modules.depth = 1 := by
  obtain ⟨t, hcode, rfl, U, bs, hevidence, hnested⟩ := Program.compile_evidenced h
  obtain ⟨hdepth, hbs⟩ := hnested 0 rfl
  refine ⟨?_, t, hcode, rfl, hdepth⟩
  have hbrackets : t.frame.brackets = bs := hevidence.brackets
  have hleave : o.version.has .leave = true := (Version.has_iff rfl _).2 hv
  exact (hbrackets ▸ hbs hleave : Nested 0 t.frame.brackets)

/-- `module M { function f() { module N {} } }` -/
def moduleInRoutine : Program where
  body := [.classDef {} ⟨.ident {} "M", none, [.function {} ⟨some (.ident {} "f"), [],
    .stmt (.block {} [.classDef {} ⟨.ident {} "N", none, [], true⟩])⟩], true⟩]

theorem moduleInRoutine_closed :
    ∃ script, moduleInRoutine.compile { version := ⟨12, by decide⟩ } noSources 0 "main" = .ok script ∧
      Nested 0 script.frame.brackets := by
  have houter : "M".splitOn "::" = ["M"] := by cbv
  have hinner : "N".splitOn "::" = ["N"] := by cbv
  have hok : (moduleInRoutine.compile { version := ⟨12, by decide⟩ } noSources 0 "main").isOk = true := by
    simp only [Program.compile, Program.code, moduleInRoutine, stmtCodes, Stmt.code, Routine.code,
      Node.code, ClassDef.code, Emit.classDef, Expr.pathName?, Emit.openClass, Emit.modulePath,
      Emit.splitPath, Emit.isPath, houter, hinner]
    decide +kernel
  obtain ⟨script, h⟩ := exists_ok hok
  exact ⟨script, h, (modules_closed_as_opened (by decide) h).1⟩

end Adhoc
