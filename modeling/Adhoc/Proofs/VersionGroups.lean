import Adhoc.Proofs.ParallelProgram

namespace Adhoc

/-- The versions that lower alike, by their numbers. -/
def Version.groups : List (List Nat) := [[1, 2, 3, 4], [5, 6], [8, 9]]

/-- The same script, said to be of another version. -/
def Script.atVersion (w : Version) (script : Script) : Script :=
  { script with format := { script.format with version := w } }

namespace Version

variable {v w : Version}

/-- Within a group no capability that matters comes or goes. -/
theorem span_of_groups (c : Capability) (hc : c.isLowered = true ∨ c = .smallIntConstants) :
    ∀ group ∈ groups, ∀ a ∈ group, ∀ b ∈ group,
      (c.span.1 ≤ a ∧ a ≤ c.span.2 ↔ c.span.1 ≤ b ∧ b ≤ c.span.2) := by
  cases c
  case symbolTable | frameDebugHeader | restFlag | parameterList | parameterIndices | capturedList |
      importAlias | singleSymbolAttributePush | sourceFileSupport | attributeEval |
      setStateInFunctions => simp [Capability.isLowered] at hc
  all_goals decide

theorem has_eq_of_groups {group : List Nat} (hgroup : group ∈ groups) (hv : v.number ∈ group)
    (hw : w.number ∈ group) (c : Capability) (hc : c.isLowered = true ∨ c = .smallIntConstants) :
    v.has c = w.has c := by
  have hspan := span_of_groups c hc group hgroup v.number hv w.number hw
  rw [Bool.eq_iff_iff]
  simpa [has] using hspan

theorem span_of_twelve (c : Capability) (hc : c.isLowered = true) :
    c.span.1 ≤ 12 ∧ 12 ≤ c.span.2 ↔ c.span.1 ≤ 13 ∧ 13 ≤ c.span.2 := by
  cases c
  case frameDebugHeader | smallIntConstants => cases hc
  all_goals decide

end Version

section

variable {v w : Version} (excused : Failure → Prop)
  (has_eq : ∀ c : Capability, c.isLowered = true → v.has c = w.has c)
  (small : v.has .smallIntConstants = w.has .smallIntConstants ∨
    w.has .smallIntConstants = true ∧ ∀ e, excused e)

/-- Nothing differs but the version. -/
def Terms.versions : Terms where
  left := v
  right := w
  exact := True
  move := id
  move_eq := Loc.unmoved
  alike := Eq
  matching := .eq
  excused := excused
  folder := none
  fill := keepIncludes
  fill' := keepIncludes
  fill_ne := keepIncludes_ne
  has_eq := has_eq
  small := small

include has_eq small in
theorem compile_versions (o : Options) (sources : Sources) (depth : Nat) (p : Program)
    (source : String) :
    (∃ e, excused e ∧ p.compile { o with version := v } sources depth source = .error e) ∨
      p.compile { o with version := w } sources depth source =
        (p.compile { o with version := v } sources depth source).map (Script.atVersion w) := by
  let T := Terms.versions excused has_eq small
  have hcases : T.Compares (p.compile { o with version := v } sources depth source)
      ((p.moved id).compile { o with version := w } sources depth source) :=
    Terms.compile_kept (o := o) rfl rfl rfl depth p source
  rw [Program.moved_id] at hcases
  rcases hcases with ⟨e, he, hleft⟩ | ⟨e, e', hfails, hleft, hright⟩ | ⟨script, code, hcode, hleft, hright⟩
  · exact .inl ⟨e, he, hleft⟩
  · obtain rfl := hfails.2 trivial
    exact .inr (hright.trans (congrArg (Except.map (Script.atVersion w)) hleft).symm)
  · have hcode : List.Forall₂ (· = ·) script.frame.code code := hcode
    rw [List.forall₂_eq_eq_eq] at hcode
    obtain ⟨_, ⟨header, code'⟩, _, _⟩ := script
    subst hcode
    exact .inr (hright.trans (congrArg (Except.map (Script.atVersion w)) hleft).symm)

end

/-- Compilations at the versions of a group have the same outcome, be it a script or a failure, and
what compiles at version 12 compiles to the same script at version 13. -/
theorem compile_alike (o : Options) (sources : Sources) (depth : Nat) (p : Program) (source : String) :
    (∀ group ∈ Version.groups, ∀ v w : Version, v.number ∈ group → w.number ∈ group →
      p.compile { o with version := w } sources depth source =
        (p.compile { o with version := v } sources depth source).map (Script.atVersion w)) ∧
    ∀ v w : Version, v.number = 12 → w.number = 13 → ∀ script,
      p.compile { o with version := v } sources depth source = .ok script →
        p.compile { o with version := w } sources depth source = .ok (script.atVersion w) := by
  constructor
  · intro group hgroup v w hv hw
    have hhas := Version.has_eq_of_groups hgroup hv hw
    have hcases := compile_versions (fun _ => False) (fun c hc => hhas c (.inl hc))
      (.inl (hhas _ (.inr rfl))) o sources depth p source
    exact hcases.resolve_left fun ⟨_, h, _⟩ => h
  · intro v w hv hw script hscript
    have hhas : ∀ c : Capability, c.isLowered = true → v.has c = w.has c := by
      intro c hc
      rw [Bool.eq_iff_iff]
      simpa [Version.has, hv, hw] using Version.span_of_twelve c hc
    have hsmall : w.has .smallIntConstants = true := by simp [Version.has, hw, Capability.span]
    have hcases := compile_versions (fun _ => True) hhas (.inr ⟨hsmall, fun _ => trivial⟩)
      o sources depth p source
    rcases hcases with ⟨e, -, he⟩ | hsame
    · rw [hscript] at he
      cases he
    · rw [hsame, hscript]
      rfl

/-- `function f(x) { return x + 1; } while (a) { print f(a); }` -/
def calledInLoop : Program where
  body := [
    .function {} {
      id := some (.ident {} "f"), params := [.ident {} "x"]
      body := .stmt (.block {} [.returnValue {}
        (some (.binary {} .add (.ident {} "x") (.literal {} (.int 1))))]) },
    .whileLoop {} (.ident {} "a")
      (.block {} [.print {} [.call {} (.ident {} "f") [.ident {} "a"]]])]

theorem calledInLoop_alike :
    (calledInLoop.compile { version := ⟨4, by decide⟩ } noSources 0 "main" =
      (calledInLoop.compile { version := ⟨1, by decide⟩ } noSources 0 "main").map
        (Script.atVersion ⟨4, by decide⟩)) ∧
    ∃ script, calledInLoop.compile { version := ⟨12, by decide⟩ } noSources 0 "main" = .ok script ∧
      calledInLoop.compile { version := ⟨13, by decide⟩ } noSources 0 "main" =
        .ok (script.atVersion ⟨13, by decide⟩) := by
  obtain ⟨hgroups, htwelve⟩ := compile_alike {} noSources 0 calledInLoop "main"
  refine ⟨hgroups [1, 2, 3, 4] (by decide) ⟨1, by decide⟩ ⟨4, by decide⟩ (by decide) (by decide), ?_⟩
  have hok : (calledInLoop.compile { version := ⟨12, by decide⟩ } noSources 0 "main").isOk = true := by
    simp only [Program.compile, Program.code, calledInLoop, stmtCodes, Stmt.code, Expr.code,
      exprCodes, Routine.code, Node.code, holeCode]
    decide +kernel
  obtain ⟨script, h⟩ := exists_ok hok
  exact ⟨script, h, htwelve ⟨12, by decide⟩ ⟨13, by decide⟩ rfl rfl script h⟩

end Adhoc
