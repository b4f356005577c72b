import Adhoc.Proofs.SafeTree

namespace Adhoc

open Session

theorem Session.start_sound (o : Options) (source : String) : (start o source).Sound := by
  have hempty : SymbolTable.Proper {} := ⟨fun i x hx => by simp at hx⟩
  exact ⟨hempty.intern source false, ⟨⟨_, rfl, hempty.lists_new source false⟩, fun _ hx => (nomatch hx),
    fun _ hx => (nomatch hx), fun _ hins => nomatch Array.not_mem_empty _ hins⟩, .of_no_marks rfl,
    fun _ hkind => nomatch hkind⟩

theorem Session.start_sourceName (o : Options) (source : String) :
    (start o source).frame.sourceName = source :=
  SymbolTable.name_of_find? (SymbolTable.intern_found {} source false)

namespace Program

variable (o : Options) (sources : Sources) (depth : Nat) (p : Program) (source : String)

/-- What escapes from a program, for each folder that includes may be looked for in. -/
def trail : Trail := .all ⟨sources, none, o.projectFolder⟩ o.version (p.body.map .stmt)

/-- A folder that includes of the program may be looked for in: the one that is given, or else that
of the source, where the program may say that it comes from other sources. -/
def LooksIn (folder : String) : Prop :=
  o.includeFolder = some folder ∨ o.includeFolder = none ∧
    ∃ name, (name = source ∨ name ∈ (p.trail o sources).names) ∧ folder = Path.parent name

theorem finds_iff {folder : String} :
    (start o source).Finds (p.trail o sources) folder ↔ p.LooksIn o sources source folder := by
  rw [Finds, start_sourceName]
  rfl

theorem code_answers :
    Answers ((start o source).Blames (o.regime depth) (p.trail o sources))
      (fun _ t => RunInvariant (o.regime depth) (p.trail o sources) [] [] (start o source) t ∧ t.Sound)
      (p.code (o.context sources depth) (start o source)) := by
  have hbody : Acts (o.regime depth) (p.trail o sources) (Emit.body o.version o.logsExceptions
      (stmtCodes (o.context sources depth) p.body)) :=
    body_performs (n := o.regime depth) (stmtCodes_forall₂ fun s _ => Stmt.safe o sources depth s)
  have hlast : Closing (o.regime depth) .block {} [] (⊥ ⊔ p.trail o sources)
      ((⊥ ⊔ p.trail o sources).stray .block) (do
      Emit.leaveScope o.version true
      Emit.setState o.version .exit) := .andThen (.leave true rfl) (.setState _)
  have hclosing := Closing.bind hbody fun _ => hlast
  simp only [Trail.past_block, Trail.stray_block, sup_bot_eq] at hclosing
  have hopened : Safe (o.regime depth) False {} [] (p.trail o sources) (fun _ => [])
      (p.code (o.context sources depth)) := p.code_context o sources depth ▸ Closing.opened hclosing
  exact (hopened _ (.of_sound (start_sound o source)) False.elim).mono id
    fun _ t ht => ⟨ht.1, ht.2.toSound⟩

variable {o sources depth p source}

/-- A script comes from a sound state, and what is left of the jumps is as the trail says. -/
theorem compile_sound {script : Script} (h : p.compile o sources depth source = .ok script) :
    ∃ t, RunInvariant (o.regime depth) (p.trail o sources) [] [] (start o source) t ∧ t.Sound ∧
      script.frame = t.frame.finish ∧ script.symbols = t.symbols ∧ script.format = o.format := by
  obtain ⟨t, hcode, rfl⟩ := compile_ok h
  have hanswer := code_answers o sources depth p source
  rw [hcode] at hanswer
  exact ⟨t, hanswer.1, hanswer.2, rfl, rfl, rfl⟩

/-- The includes of a program that was compiled have been looked for in a folder. -/
theorem exists_looks {t : Session}
    (h : RunInvariant (o.regime depth) (p.trail o sources) [] [] (start o source) t) :
    ∃ folder, p.LooksIn o sources source folder ∧ t.Looks folder := by
  cases ht : t.includeFolder with
  | none =>
    obtain ⟨folder, hfinds⟩ := (start o source).exists_finds (p.trail o sources)
    exact ⟨folder, (finds_iff o sources p source).1 hfinds, .inl ht⟩
  | some folder =>
    refine ⟨folder, (finds_iff o sources p source).1 ?_, .inr ht⟩
    rcases h.folder with hs | ⟨-, g, hg, hfinds⟩
    · exact .inl (hs ▸ ht)
    · rwa [Option.some.inj (hg.symm.trans ht)] at hfinds

theorem code_of_compile_error {e : Failure} (h : p.compile o sources depth source = .error e) :
    p.code (o.context sources depth) (start o source) = .error e := by
  unfold compile at h
  cases hc : p.code (o.context sources depth) (start o source) with
  | error e' =>
    rw [hc] at h
    exact congrArg Except.error (Except.error.inj h)
  | ok r =>
    rw [hc] at h
    cases h

theorem compile_ne_defect (d : Defect) : p.compile o sources depth source ≠ .error (.defect d) := by
  intro h
  have hanswer := code_answers o sources depth p source
  rwa [code_of_compile_error h] at hanswer

theorem nests_of_includesTooDeep (h : p.compile o sources depth source = .error .includesTooDeep) :
    ∃ folder, p.LooksIn o sources source folder ∧ .nests depth ∈ p.trail o sources folder := by
  have hanswer := code_answers o sources depth p source
  rw [code_of_compile_error h] at hanswer
  obtain ⟨folder, hfinds, hnests⟩ := hanswer
  exact ⟨folder, (finds_iff o sources p source).1 hfinds, hnests⟩

end Program

end Adhoc
