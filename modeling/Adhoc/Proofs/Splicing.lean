import Adhoc.Proofs.ParallelProgram

namespace Adhoc

open Emit List

variable {T : Terms} {program : Program} {sources : Sources} {loc : Loc} {cx : Context}
  {s : Session} {o : Options} {depth : Nat}

section

-- Includes of `here` mark the place; other includes stay as they are.
variable (here : String) (stmts : List Stmt)

/-- What stands for the marked includes. -/
def standIn (loc : Loc) (path : String) : List Stmt :=
  if path = here then stmts else [.includeFile loc path]

/-- The program with the statements at the marked place. -/
def Program.withAt (p : Program) : Program := p.filled (standIn here stmts)

end

theorem standIn_ne {here : String} {stmts : List Stmt} (h : stmts ≠ []) (loc : Loc) (path : String) :
    standIn here stmts loc path ≠ [] := by
  unfold standIn
  split
  · exact h
  · exact cons_ne_nil _ _

/-- The text of an included file, between two marks. -/
def spliced (opening closing : Loc) (path outer : String) (program : Program) : List Stmt :=
  .sourceFile opening path :: program.body ++ [.sourceFile closing outer]

/-- The lines of a mark: that of the include, or none. -/
def markLines (include_ : Loc) (path outer : String) (line line' : UInt32) (x : Symbol) : Prop :=
  line = include_.line ∧ line' = 0 ∧ (x.name = path ∨ x.name = outer)

/-- An include and the text it stands for, at the same version. Only the first compilation can run
out of depth where the second does not. -/
def Terms.splicing (v : Version) (folder here : String) (loc opening closing : Loc)
    (path outer : String) (program : Program) : Terms where
  left := v
  right := v
  exact := True
  move := id
  move_eq := Loc.unmoved
  alike := Instruction.Like (markLines loc path outer)
  matching := Instruction.Like.matching
  excused e := e = .includesTooDeep
  folder := some folder
  fill := standIn here [.includeFile loc path]
  fill' := standIn here (spliced opening closing path outer program)
  fill_ne loc path := ⟨standIn_ne (cons_ne_nil _ _) loc path,
    standIn_ne (cons_ne_nil _ _) loc path⟩
  has_eq := v.lowers_alike
  small := .inl rfl

theorem Emit.locateInclude_settled {folder path location : String}
    (hs : s.includeFolder = some folder)
    (h : (cx.library none).locate? folder path = some location) :
    locateInclude cx loc path s = .ok (location, s) := by
  have hfolder : includeFolder s = .ok (folder, s) := by
    unfold includeFolder
    rw [hs]
  unfold locateInclude
  rw [show ∀ f : String → Emit String, (includeFolder >>= f) s = (includeFolder s).bind fun p => f p.1 p.2
    from fun _ => rfl, hfolder]
  unfold Library.locate? at h
  split at h
  · rename_i hfirst
    cases h
    exact congrFun (if_pos hfirst) s
  · rename_i hfirst
    obtain ⟨project, hproject, h⟩ := Option.bind_eq_some_iff.1 h
    have hproject : cx.projectFolder = some project := hproject
    refine (congrFun (if_neg hfirst) s).trans ?_
    rw [hproject]
    split at h
    · rename_i hsecond
      cases h
      exact congrFun (if_pos hsecond) s
    · cases h

theorem Emit.includeFile_found {folder path location : String} (hs : s.includeFolder = some folder)
    (hlocate : (cx.library none).locate? folder path = some location)
    (hread : cx.sources.read? location = some program) :
    includeFile cx loc path s = included cx.version loc.line path (cx.follow program.body) s := by
  rw [includeFile_eq, show ∀ f : String → Emit Unit, (locateInclude cx loc path >>= f) s =
    (locateInclude cx loc path s).bind fun p => f p.1 p.2 from fun _ => rfl,
    locateInclude_settled hs hlocate]
  simp only [Except.bind]
  generalize cx.sources.read? location = found at hread ⊢
  subst hread
  rfl

theorem runAll_singleton (cx : Context) (s : Stmt) : runAll (stmtCodes cx [s]) = (s.code cx).run :=
  bind_pure_unit

theorem runAll_spliced (cx : Context) (opening closing : Loc) (path outer : String)
    (program : Program) :
    runAll (stmtCodes cx (spliced opening closing path outer program)) = (do
      let x ← plainSymbol path
      setSource (some x)
      emit cx.version (.named .sourceFile x) 0
      runAll (stmtCodes cx program.body)
      let y ← plainSymbol outer
      setSource (some y)
      emit cx.version (.named .sourceFile y) 0) := by
  rw [spliced, cons_append, ← singleton_append, runAll_append, runAll_append,
    runAll_singleton, runAll_singleton]
  simp only [Stmt.code, StmtCode.ofRun, sourceFile_eq, bind_assoc]

theorem Terms.Parallel.frameLeft {α : Type} {n m : String} {f : Draft → Emit α} {y : Emit α}
    (h : ∀ d, T.ParallelIn d n n m (f d) y) : T.Parallel n m (Emit.frame >>= f) y :=
  fun s _ hs => h s.frame hs hs.sourced

theorem Terms.Parallel.emitMark {n : String} {x : Symbol} {line line' : UInt32}
    (h : T.alike ⟨line, .named .sourceFile x⟩ ⟨line', .named .sourceFile x⟩) :
    T.Parallel n n (Emit.emit T.left (.named .sourceFile x) line)
      (Emit.emit T.right (.named .sourceFile x) line') :=
  .discard (.add_like (effect_eq _) h)

theorem Terms.followed_parallel (hexcused : T.excused .includesTooDeep) (body : List Stmt)
    (n : String) : ∃ m, T.Parallel n m
      ((T.setting o sources depth depth).follow body)
      (runAll (stmtCodes (T.context' (T.setting o sources depth depth)) body)) := by
  cases depth with
  | zero => exact ⟨n, fun _ _ _ => .excuse _ hexcused⟩
  | succ d =>
    have hfollow : ∀ body n, ∃ m, T.Parallel n m ((T.setting o sources d (d + 1)).follow body)
        ((T.setting o sources d (d + 1)).follow' body) :=
      follow_parallel (.inr ⟨Nat.le_succ d, hexcused⟩)
    have hstmts := kept_stmts hfollow body n
    rw [context_setting, context'_setting] at hstmts
    rw [context'_setting]
    exact hstmts

theorem Terms.ParallelIn.closingMark {d : Draft} {n outer : String} {line line' : UInt32}
    (hmarks : ∀ x : Symbol, x.name = outer →
      T.alike ⟨line, .named .sourceFile x⟩ ⟨line', .named .sourceFile x⟩) :
    T.ParallelIn d outer n outer
      (do
        let x ← match d.source with
          | some x => Pure.pure x
          | none => plainSymbol ""
        emit T.left (.named .sourceFile x) line
        setSource d.source)
      (do
        let x ← Emit.plainSymbol outer
        Emit.setSource (some x)
        Emit.emit T.right (.named .sourceFile x) line') := by
  intro s s' hs hchild
  obtain ⟨x, hx, hfind⟩ := hchild
  obtain ⟨e, rfl, he⟩ := hs.like
  have hmark := ParallelIn.bind (n := n) (Parallel.emitMark (hmarks x (SymbolTable.name_of_find? hfind)))
    (fun _ => leaveSource) hs ⟨x, hx, hfind⟩
  have hfound : plainSymbol outer { s with frame := e } = .ok (x, { s with frame := e }) := by
    simp only [plainSymbol, interned, SymbolTable.internName,
      SymbolTable.intern_of_some hfind]
  rw [show ∀ f : Symbol → Emit Unit, (plainSymbol outer >>= f) { s with frame := e } =
    (plainSymbol outer { s with frame := e }).bind fun p => f p.1 p.2 from fun _ => rfl, hfound]
  rw [hx] at hmark ⊢
  rw [emit_setSource] at hmark
  exact hmark

section

variable {v : Version} {folder here path outer location : String} {opening closing : Loc}

/-- The include and the text it stands for, where the source has the outer name. -/
theorem place_parallel (hlocate : (o.library sources).locate? folder path = some location)
    (hread : sources.read? location = some program) :
    let T := Terms.splicing o.version folder here loc opening closing path outer program
    let S := T.setting o sources depth depth
    T.Parallel outer outer (runAll (stmtCodes (T.context S) [.includeFile loc path]))
      (runAll (stmtCodes (T.context' S) (spliced opening closing path outer program))) := by
  intro T S
  obtain ⟨m, hfollowed⟩ : ∃ m, T.Parallel path m (S.follow program.body)
      (runAll (stmtCodes (T.context' S) program.body)) :=
    Terms.followed_parallel rfl program.body path
  rw [runAll_singleton, runAll_spliced]
  intro s s' hs
  have hsettled : s.includeFolder = some folder := hs.settled folder rfl
  have hlocate : ((T.context S).library none).locate? folder path = some location := hlocate
  rw [show ((Stmt.includeFile loc path).code (T.context S)).run = includeFile (T.context S) loc path
    from rfl, includeFile_found hsettled hlocate hread]
  refine Terms.Parallel.frameLeft (fun d => ?_) hs
  refine .enterSource path fun x hx => .bind (.emitMark (.mark ⟨rfl, rfl, .inl hx⟩)) fun _ => ?_
  exact .bind hfollowed fun _ => .closingMark fun y hy => .mark ⟨rfl, rfl, .inr hy⟩

end

/-- Includes and splices. Let includes of `here` mark places of the program where the source is called
`outer`, and let `path` be found in the folder of includes. An include of `path` at these places and
the text of its file between two marks compile to the same, failures included, except for the lines of
the two marks. Only an include can be too deep. -/
theorem include_splices {o : Options} {sources : Sources} {depth : Nat} {p included : Program}
    {source folder here path outer location : String} {loc opening closing : Loc}
    (hfolder : o.includeFolder = some folder)
    (hlocate : (o.library sources).locate? folder path = some location)
    (hread : sources.read? location = some included)
    (hplace : ∃ m, NamesAll o.version (fun found name => found = here → name = outer)
      (p.body.map .stmt) source m) :
    let first := (p.withAt here [.includeFile loc path]).compile o sources depth source
    let second := (p.withAt here (spliced opening closing path outer included)).compile o sources
      depth source
    first = .error .includesTooDeep ∨ (∃ e, first = .error e ∧ second = .error e) ∨
      ∃ script frame, first = .ok script ∧ second = .ok { script with frame := frame } ∧
        Frame.Like (markLines loc path outer) script.frame frame := by
  intro first second
  obtain ⟨m, hm⟩ := hplace
  let T := Terms.splicing o.version folder here loc opening closing path outer included
  have hfollow : ∀ body n, ∃ m, T.Parallel n m ((T.setting o sources depth depth).follow body)
      ((T.setting o sources depth depth).follow' body) := Terms.follow_parallel (.inl rfl)
  have hT : T.Aligned (T.setting o sources depth depth)
      fun found name => found = here → name = outer := by
    refine ⟨hfollow, fun loc path n hallowed => ?_⟩
    dsimp only [T, Terms.splicing, standIn]
    split
    · obtain rfl := hallowed ‹_›
      rw [stmtsMoved_id]
      exact place_parallel hlocate hread
    · exact Terms.kept_hole hfollow loc path
  have hcases := Terms.compile_cases hT (fun f hf => Option.some.inj hf ▸ hfolder) hm
  rw [show T.move = id from rfl, Program.moved_id] at hcases
  rcases hcases with ⟨e, rfl, h⟩ | ⟨e, e', hfails, hfirst, hsecond⟩ | ⟨script, code, hcode, hfirst, hsecond⟩
  · exact .inl h
  · obtain rfl := hfails.2 trivial
    exact .inr (.inl ⟨e, hfirst, hsecond⟩)
  · obtain ⟨t, -, rfl⟩ := Program.compile_ok hfirst
    exact .inr (.inr ⟨_, _, hfirst, hsecond, .mk (codeLike_iff.2 hcode)⟩)

/-- `#source "lib.ad" { include }`, where the place of the include is marked. -/
def placeInBlock : Program where
  body := [.sourceFile {} "lib.ad", .block {} [.includeFile {} "here"]]

theorem placeInBlock_names : ∃ m, NamesAll .latestCommon
    (fun found name => found = "here" → name = "lib.ad") (placeInBlock.body.map .stmt) "main.ad" m :=
  ⟨_, .cons .source (.cons (.plain rfl rfl (.cons (.inclusion fun _ => rfl) .nil)) .nil)⟩

theorem placeInBlock_splices :
    ∃ script frame,
      (placeInBlock.withAt "here" [.includeFile ⟨7, 0⟩ "a.ad"]).compile { includeFolder := some "" }
        twoFiles 2 "main.ad" = .ok script ∧
      (placeInBlock.withAt "here" (spliced {} {} "a.ad" "lib.ad" ⟨[.includeFile {} "b.ad"]⟩)).compile
        { includeFolder := some "" } twoFiles 2 "main.ad" = .ok { script with frame := frame } ∧
      Frame.Like (markLines ⟨7, 0⟩ "a.ad" "lib.ad") script.frame frame := by
  have hok : ((placeInBlock.withAt "here" [.includeFile ⟨7, 0⟩ "a.ad"]).compile
      { includeFolder := some "" } twoFiles 2 "main.ad").isOk = true := by
    simp only [Program.withAt, Program.filled, placeInBlock, stmtsFilled, Stmt.include?, Stmt.filled,
      standIn, Program.compile, Program.code]
    decide +kernel
  have hsplices := @include_splices { includeFolder := some "" } twoFiles 2 placeInBlock
    ⟨[.includeFile {} "b.ad"]⟩ "main.ad" "" "here" "a.ad" "lib.ad" "a.ad" ⟨7, 0⟩ {} {} rfl
    (by decide +kernel) rfl placeInBlock_names
  rcases hsplices with h | ⟨e, h, -⟩ | h
  · rw [h] at hok
    cases hok
  · rw [h] at hok
    cases hok
  · exact h

end Adhoc
