import Adhoc.Proofs.SafeProgram
import Adhoc.Proofs.EvidenceStmt

namespace Adhoc

namespace Program

variable {o : Options} {sources : Sources} {depth : Nat} {p : Program} {source : String}
  {script : Script}

/-- The signs of the statements of a program. -/
def signs (o : Options) (sources : Sources) (p : Program) : Signs :=
  .all ⟨sources, none, o.projectFolder⟩ o.version o.logsExceptions (p.body.map .stmt)

theorem code_evinces (o : Options) (sources : Sources) (depth : Nat) (p : Program) :
    Evinces o.version
      (.foreign (o.version.number < 10 ∧ o.logsExceptions = true) ⊔ p.signs o sources)
      (p.code (o.context sources depth)) := by
  rw [code_context]
  refine .own (.pushScope _) fun _ => .last ?_ fun _ => .own (.leaveScope _) fun _ => .setState _
  exact body_holds (stmtCodes_forall₂ fun s _ => Stmt.evidenced o sources depth s)

theorem compile_evidenced (h : p.compile o sources depth source = .ok script) :
    ∃ t, p.code (o.context sources depth) (.start o source) = .ok ((), t) ∧
      script = ⟨o.format, t.frame.finish, t.symbols, Warning.all.filter t.warnings.contains⟩ ∧
      Evidenced o.version ∅ (.foreign (o.version.number < 10 ∧ o.logsExceptions = true) ⊔ p.signs o sources)
        (.start o source) t := by
  obtain ⟨t, hcode, hscript⟩ := compile_ok h
  exact ⟨t, hcode, hscript, code_evinces o sources depth p hcode⟩

theorem compile_evidence (h : p.compile o sources depth source = .ok script) :
    ∃ folder, p.LooksIn o sources source folder ∧
      (∀ n, .since n ∈ p.signs o sources folder → n ≤ o.version.number) ∧
      ((∃ g ∈ script.frame.preorder, ∃ ins ∈ g.code, ins.operation.isForeign o.version = true) ↔
        o.version.number < 10 ∧ o.logsExceptions = true ∨ .foreign ∈ p.signs o sources folder) ∧
      ∀ g ∈ script.frame.preorder, ∀ ins ∈ g.code, ins.operation.isStrange o.version = false := by
  obtain ⟨t, hcode, rfl, U, bs, hevidence, -⟩ := compile_evidenced h
  have hinvariant := code_answers o sources depth p source
  rw [hcode] at hinvariant
  obtain ⟨folder, hfolder, hlooks⟩ := exists_looks hinvariant.1
  -- There is no code before the first instruction.
  have hstart {q : Operation → Bool} : ¬ (Session.start o source).frame.Has q :=
    Draft.not_has_of_empty rfl
  refine ⟨folder, hfolder, fun n hn => hevidence.since hlooks (.inr hn), ?_, fun g hg ins hins => ?_⟩
  · rw [← Draft.has_finish, hevidence.foreign hlooks, or_iff_right hstart, Signs.mem_sup,
      Signs.mem_foreign]
  · by_contra hstrange
    refine hstart (hevidence.strange (Draft.has_finish.2 ⟨g, hg, ins, hins, ?_⟩))
    simpa using hstrange

theorem mem_signs {folder : String} {e : Sign} : e ∈ p.signs o sources folder ↔
    ∃ s ∈ p.body, ∃ u, Lowers ⟨sources, some folder, o.projectFolder⟩ o.version (.stmt s) u ∧
      e ∈ u.signs o.version o.logsExceptions := by
  simp [signs, Signs.all, Signs.of, Library.at]

end Program

/-- A compiled script has only operations of its version exactly if no handler of exceptions is
lowered for a version before 10, be it one of the program or the one that logs exceptions, and no
`yield` or `await` for a version before 11. The operations that a script can have too early are four,
all of them newer forms that these constructs do not choose. -/
theorem operations_admitted_iff {o : Options} {sources : Sources} {depth : Nat} {p : Program}
    {source : String} {script : Script} (h : p.compile o sources depth source = .ok script) :
    (∃ folder, p.LooksIn o sources source folder ∧
      ((∀ g ∈ script.frame.preorder, ∀ ins ∈ g.code, ins.operation.isAdmitted o.version = true) ↔
        (o.version.number < 10 → o.logsExceptions = false) ∧ ∀ s ∈ p.body, ∀ u,
          Lowers ⟨sources, some folder, o.projectFolder⟩ o.version (.stmt s) u →
            (o.version.number < 10 → u.isHandler = false) ∧
            (o.version.number < 11 → u.isSuspension = false))) ∧
    ∀ g ∈ script.frame.preorder, ∀ ins ∈ g.code, ins.operation.isAdmitted o.version = true ∨
      ins.operation.isDirect = true := by
  obtain ⟨folder, hfolder, -, hforeign, hstrange⟩ := Program.compile_evidence h
  refine ⟨⟨folder, hfolder, ?_⟩, fun g hg ins hins => ?_⟩
  · have hadmitted : (∀ g ∈ script.frame.preorder, ∀ ins ∈ g.code,
        ins.operation.isAdmitted o.version = true) ↔
        ¬ ∃ g ∈ script.frame.preorder, ∃ ins ∈ g.code,
          ins.operation.isForeign o.version = true := by
      simp [Operation.isForeign]
    simp only [hadmitted, hforeign, Program.mem_signs, Use.foreign_mem_signs]
    constructor
    · intro hnot
      have hlogs (hv : o.version.number < 10) : o.logsExceptions = false :=
        Bool.eq_false_iff.2 fun hl => hnot (.inl ⟨hv, hl⟩)
      refine ⟨hlogs, fun s hs u hu => ⟨fun hv => Bool.eq_false_iff.2 fun hh => ?_,
        fun hv => Bool.eq_false_iff.2 fun hh => ?_⟩⟩
      · exact hnot (.inr ⟨s, hs, u, hu, .inl ⟨hv, .inl hh⟩⟩)
      · exact hnot (.inr ⟨s, hs, u, hu, .inr ⟨hv, hh⟩⟩)
    · rintro ⟨hlogs, hall⟩ (⟨hv, hl⟩ | ⟨s, hs, u, hu, hsign⟩)
      · exact Bool.false_ne_true ((hlogs hv).symm.trans hl)
      · obtain ⟨hhandler, hsuspension⟩ := hall s hs u hu
        rcases hsign with ⟨hv, hh | ⟨hl, -⟩⟩ | ⟨hv, hh⟩
        · exact Bool.false_ne_true ((hhandler hv).symm.trans hh)
        · exact Bool.false_ne_true ((hlogs hv).symm.trans hl)
        · exact Bool.false_ne_true ((hsuspension hv).symm.trans hh)
  · simpa [Operation.isStrange, Operation.isForeign, or_iff_not_imp_left] using hstrange g hg ins hins

/-- `try {} catch {}` -/
def emptyHandler : Program where
  body := [.tryCatch {} (.block {} []) (some ⟨{}, none, .block {} []⟩) none]

theorem emptyHandler_unadmitted :
    ∃ script, emptyHandler.compile { version := ⟨9, by decide⟩ } noSources 0 "main" = .ok script ∧
      ∃ g ∈ script.frame.preorder, ∃ ins ∈ g.code,
        ins.operation.isAdmitted ⟨9, by decide⟩ = false ∧ ins.operation.isDirect = true := by
  have hok : (emptyHandler.compile { version := ⟨9, by decide⟩ } noSources 0 "main").isOk =
      true := by
    decide +kernel
  obtain ⟨script, h⟩ := exists_ok hok
  obtain ⟨⟨folder, -, hiff⟩, hdirect⟩ := operations_admitted_iff h
  by_contra hnone
  have hadmitted : ∀ g ∈ script.frame.preorder, ∀ ins ∈ g.code,
      ins.operation.isAdmitted ⟨9, by decide⟩ = true := by
    intro g hg ins hins
    by_contra hins'
    refine hnone ⟨script, h, g, hg, ins, hins, by simpa using hins', ?_⟩
    exact (hdirect g hg ins hins).resolve_left hins'
  -- The statement itself is a handler.
  have hhandler := ((hiff.1 hadmitted).2 _ List.mem_cons_self _ (.here _)).1 (by decide)
  cases hhandler

/-- Where a program is compiled, a construct of it is newer than the version exactly if it is an
optional member that is lowered as a place, and the version is before 12. -/
theorem newer_than_version_iff {o : Options} {sources : Sources} {depth : Nat} {p : Program}
    {source : String} {script : Script} (h : p.compile o sources depth source = .ok script) :
    ∃ folder, p.LooksIn o sources source folder ∧ ∀ s ∈ p.body, ∀ u,
      Lowers ⟨sources, some folder, o.projectFolder⟩ o.version (.stmt s) u →
        ((∃ n, u.first? = some n ∧ o.version.number < n) ↔
          o.version.number < 12 ∧ u.isOptionalPlace = true) := by
  obtain ⟨folder, hfolder, hsince, -, -⟩ := Program.compile_evidence h
  refine ⟨folder, hfolder, fun s hs u hu => ⟨?_, ?_⟩⟩
  · rintro ⟨n, hn, hv⟩
    by_cases hplace : u.isOptionalPlace = true
    · rw [Use.first?_of_isOptionalPlace hplace, Option.some.injEq] at hn
      exact ⟨hn ▸ hv, hplace⟩
    · -- The version of any other construct is checked.
      have hchecked : u.checked? = some n := by rw [Use.checked?, if_neg hplace, hn]
      have hle := hsince n (Program.mem_signs.2 ⟨s, hs, u, hu, Use.since_mem_signs.2 hchecked⟩)
      exact absurd hv (Nat.not_lt.2 hle)
  · rintro ⟨hv, hplace⟩
    exact ⟨12, Use.first?_of_isOptionalPlace hplace, hv⟩

/-- `a?.b = 1;` -/
def optionalTarget : Program where
  body := [.expression {} (.assign {} .assign (.attribute {} (.ident {} "a") (.ident {} "b") true)
    (.literal {} (.int 1)))]

theorem optionalTarget_newer_than_version :
    ∃ script, optionalTarget.compile { version := ⟨11, by decide⟩ } noSources 0 "main" =
        .ok script ∧
      ∃ folder, ∃ s ∈ optionalTarget.body, ∃ u,
        Lowers ⟨noSources, some folder, none⟩ ⟨11, by decide⟩ (.stmt s) u ∧
        ∃ n, u.first? = some n ∧ 11 < n := by
  have hok : (optionalTarget.compile { version := ⟨11, by decide⟩ } noSources 0 "main").isOk =
      true := by
    decide +kernel
  obtain ⟨script, h⟩ := exists_ok hok
  obtain ⟨folder, -, hiff⟩ := newer_than_version_iff h
  -- The member is the second part of the assignment: its value comes first.
  have hlowers : Lowers ⟨noSources, some folder, none⟩ ⟨11, by decide⟩
      (.stmt (optionalTarget.body.get ⟨0, Nat.one_pos⟩))
      (.expr .place (.attribute {} (.ident {} "a") (.ident {} "b") true)) :=
    .use List.mem_cons_self (.use (List.mem_cons_of_mem _ List.mem_cons_self) (.here _))
  exact ⟨script, h, folder, _, List.mem_cons_self, _, hlowers,
    (hiff _ List.mem_cons_self _ hlowers).2 ⟨by decide, rfl⟩⟩

end Adhoc
