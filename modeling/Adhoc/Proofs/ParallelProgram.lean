import Adhoc.Proofs.ParallelTree

namespace Adhoc

namespace Terms

/-- The same terms with includes and positions that stay. -/
def kept (T : Terms) : Terms :=
  { T with
    move := id
    move_eq := fun _ => rfl
    fill := keepIncludes
    fill' := keepIncludes
    fill_ne := keepIncludes_ne }

theorem kept_pair {T : Terms} {n : String} {s s' : Session} : T.kept.Pair n s s' ↔ T.Pair n s s' :=
  ⟨fun h => ⟨h.like, h.sourced, h.settled⟩, fun h => ⟨h.like, h.sourced, h.settled⟩⟩

theorem kept_meets {T : Terms} {α : Type} {P : α → Session → Session → Prop}
    {r r' : Except Failure (α × Session)} : Meets T.kept P r r' ↔ Meets T P r r' := by
  constructor
  all_goals
    intro h
    cases h with
    | ok a h => exact .ok a h
    | error h => exact .error h
    | excuse _ h => exact .excuse _ h

theorem kept_parallel {T : Terms} {α : Type} {n m : String} {x y : Emit α} :
    T.kept.Parallel n m x y ↔ T.Parallel n m x y := by
  simp only [Parallel, kept_pair, kept_meets]

/-- Two compilations with the same options, apart from the version, that have the depths `d` and `d'`
left. -/
def setting (T : Terms) (o : Options) (sources : Sources) (d d' : Nat) : Setting where
  logsExceptions := o.logsExceptions
  projectFolder := o.projectFolder
  sources := sources
  follow := (Options.context { o with version := T.left } sources d).follow
  follow' := (Options.context { o with version := T.right } sources d').follow

variable {T : Terms} {o : Options} {sources : Sources} {n : String}

theorem context_setting (T : Terms) (o : Options) (sources : Sources) (d d' : Nat) :
    T.context (T.setting o sources d d') = Options.context { o with version := T.left } sources d := by
  cases d <;> rfl

theorem context'_setting (T : Terms) (o : Options) (sources : Sources) (d d' : Nat) :
    T.context' (T.setting o sources d d') =
      Options.context { o with version := T.right } sources d' := by
  cases d' <;> rfl

section

variable {S : Setting} (hfollow : ∀ body n, ∃ m, T.Parallel n m (S.follow body) (S.follow' body))
include hfollow

/-- An include that stays is the same on both sides if what it brings in is. -/
theorem kept_hole (loc : Loc) (path : String) :
    T.Parallel n n (runAll (stmtCodes (T.context S) (keepIncludes loc path)))
      (runAll (stmtCodes (T.context' S) (stmtsMoved T.move (keepIncludes loc path)))) :=
  .bind (.includeFile hfollow (T.near_move loc) path) fun _ => .pure ()

theorem kept_stmts (ss : List Stmt) (n : String) : ∃ m, T.Parallel n m
    (runAll (stmtCodes (T.context S) ss)) (runAll (stmtCodes (T.context' S) ss)) := by
  have hkept : T.kept.Aligned S fun _ _ => True := by
    have hkept : ∀ body n, ∃ m, T.kept.Parallel n m (S.follow body) (S.follow' body) := by
      simpa only [kept_parallel] using hfollow
    exact ⟨hkept, fun loc path _ _ => kept_hole hkept loc path⟩
  obtain ⟨m, hm⟩ := exists_namesAll (v := T.left) (ss.map .stmt) n
  have hstmts : T.Parallel n m (runAll (stmtCodes (T.context S) (stmtsFilled keepIncludes ss)))
      (runAll (stmtCodes (T.context' S) (stmtsMoved id (stmtsFilled keepIncludes ss)))) :=
    kept_parallel.1 (hkept.stmts hm)
  rw [stmtsMoved_id, stmtsFilled_keepIncludes] at hstmts
  exact ⟨m, hstmts⟩

end

/-- What an include brings in is compared by induction on the depth that is left. -/
theorem follow_parallel {d d' : Nat} (hdepth : d = d' ∨ d ≤ d' ∧ T.excused .includesTooDeep)
    (body : List Stmt) (n : String) : ∃ m, T.Parallel n m ((T.setting o sources d d').follow body)
      ((T.setting o sources d d').follow' body) := by
  induction d generalizing d' body n with
  | zero =>
    refine ⟨n, fun s s' _ => ?_⟩
    rcases hdepth with rfl | ⟨-, hexcused⟩
    · exact .same _
    · exact .excuse _ hexcused
  | succ d ih =>
    cases d' with
    | zero => omega
    | succ d' =>
      have hfollow := ih (hdepth.imp Nat.succ.inj fun h => ⟨Nat.le_of_succ_le_succ h.1, h.2⟩)
      have hstmts := kept_stmts hfollow body n
      rw [context_setting, context'_setting] at hstmts
      exact hstmts

/-- The first compilation is excused, both fail, or both give scripts that are alike. -/
def Compares (T : Terms) (first second : Except Failure Script) : Prop :=
  (∃ e, T.excused e ∧ first = .error e) ∨
  (∃ e e', T.Fails e e' ∧ first = .error e ∧ second = .error e') ∨
  ∃ script code, List.Forall₂ T.alike script.frame.code code ∧ first = .ok script ∧
    second = .ok { script with
      format := { script.format with version := T.right }
      frame := { script.frame with code := code } }

theorem compile_cases {allowed : String → String → Prop} {d d' : Nat} {p : Program} {source m : String}
    (hT : T.Aligned (T.setting o sources d d') allowed)
    (hfolder : ∀ f, T.folder = some f → o.includeFolder = some f)
    (hn : NamesAll T.left allowed (p.body.map .stmt) source m) :
    T.Compares ((p.filled T.fill).compile { o with version := T.left } sources d source)
      (((p.filled T.fill').moved T.move).compile { o with version := T.right } sources d' source) := by
  have hstart : Session.start { o with version := T.right } source =
      Session.start { o with version := T.left } source := by
    simp only [Session.start, Draft.start, Slots.empty, T.has_eq .splitStorage rfl]
  have hpair : T.Pair source (Session.start { o with version := T.left } source)
      (Session.start { o with version := T.right } source) := by
    rw [hstart]
    exact ⟨⟨_, rfl, .refl T.matching _⟩, ⟨_, rfl, SymbolTable.intern_found {} source false⟩, hfolder⟩
  have hmeets := hT.program hn hpair
  rw [context_setting, context'_setting] at hmeets
  unfold Program.compile
  generalize Program.code _ _ _ = r at hmeets
  generalize Program.code _ _ _ = r' at hmeets
  cases hmeets with
  | excuse _ h => exact .inl ⟨_, h, rfl⟩
  | error h => exact .inr (.inl ⟨_, _, h, rfl, rfl⟩)
  | ok _ h =>
    obtain ⟨⟨⟨e, rfl, code, rfl, hcode⟩, -, -⟩, -⟩ := h
    exact .inr (.inr ⟨_, _, hcode, rfl, rfl⟩)

/-- One program that is compiled on both sides with its own includes. -/
theorem compile_kept (hfill : T.fill = keepIncludes) (hfill' : T.fill' = keepIncludes)
    (hfolder : T.folder = none) (d : Nat) (p : Program) (source : String) :
    T.Compares (p.compile { o with version := T.left } sources d source)
      ((p.moved T.move).compile { o with version := T.right } sources d source) := by
  have hfollow : ∀ body n, ∃ m, T.Parallel n m ((T.setting o sources d d).follow body)
      ((T.setting o sources d d).follow' body) := follow_parallel (.inl rfl)
  have hT : T.Aligned (T.setting o sources d d) fun _ _ => True := by
    refine ⟨hfollow, fun loc path _ _ => ?_⟩
    rw [hfill, hfill']
    exact kept_hole hfollow loc path
  obtain ⟨m, hm⟩ := exists_namesAll (v := T.left) (p.body.map .stmt) source
  have hfilled : p.filled keepIncludes = p := by
    rw [Program.filled, stmtsFilled_keepIncludes]
  have hcases := compile_cases hT (fun f hf => by simp [hfolder] at hf) hm
  rwa [hfill, hfill', hfilled] at hcases

end Terms

end Adhoc
