import Adhoc.Proofs.JudgedCode
import Adhoc.Proofs.EvidenceExpr

namespace Adhoc

open Emit

variable {v : Version} {logs : Bool} {lib : Library}

section

variable {D E : Signs} {e : Expr} {role : Role}

/-- A node that brings a subroutine has the signs of its parameters and those of its body. -/
theorem Signs.of_routine {u : Use} {b : Node} (hbody : u.part.body? = some b)
    (hpath : u.part.path? = none) (hchecked : u.checked? = none)
    (hplain : (u.isHandler || u.isBlock || u.isSuspension) = false) :
    of lib v logs u = all lib v logs (u.uses v) ⊔ of lib v logs b.use := by
  simp only [Bool.or_eq_false_iff] at hplain
  obtain ⟨⟨hhandler, hblock⟩, hsuspension⟩ := hplain
  rw [of_body hbody hpath, Use.signs_of_unchecked hchecked, hhandler, hblock, hsuspension,
    foreign_of_not (by simp), bot_sup_eq]

theorem closure_evinces {cs : List ExprCode} {c : NodeCode} (loc : Loc) (isMethod : Bool)
    (hparams : EvincesIn v D (parameters cs)) (hbody : Evinces v E (closureBody v c)) :
    Evinces v (D ⊔ E) (closure v loc cs c isMethod) := by
  refine .newChild fun child hchild => ?_
  refine .learn (hparams.evinces child) (fun _ _ _ h => (hparams.code h).trans hchild) fun d hd => ?_
  exact .within hd (.last hbody fun _ => .leaveScope _) fun _ => .forM _ fun _ => .readName _ _

theorem reserveSlot_code (isMethod : Bool) (child : Draft) :
    (reserveSlot v isMethod child).code = child.code := by
  unfold reserveSlot
  split <;> rfl

theorem subroutine_evinces {r : RoutineCode} (loc : Loc) (isMethod : Bool)
    (hparams : EvincesIn v D (parameters r.params))
    (hbody : ∀ ⦃s body t⦄, NodeCode.blockBody r.body s = .ok (body, t) → Evinces v E body) :
    Evinces v (D ⊔ E) (subroutine v loc r isMethod) := by
  rw [subroutine_eq]
  split
  · exact .reject
  · refine .own (.neutral (.symbol _)) fun symbol => .newChild fun child hchild => ?_
    have hrest : Evinces v (D ⊔ E) (defineRoutine v loc r isMethod symbol child) := by
      refine .learn (hparams.evinces child) (fun _ _ _ h => (hparams.code h).trans hchild) fun d hd => ?_
      refine .own (.onFrame Draft.scope_blind) fun scope => .own .require fun _ => ?_
      refine .own (addMember_evinces _) fun _ => ?_
      rw [← bot_sup_eq E]
      refine .learn (.neutral (blockBody_neutral _)) hbody fun body hb => ?_
      exact .within (f := fun _ => pure ()) ((reserveSlot_code isMethod d).trans hd)
        (.last hb fun _ => .own (.leaveScope _) fun _ => .frameExit) fun _ => .pure ()
    refine .ite (fun _ => ?_) fun _ => hrest
    exact .own (.neutral (.define _ _)) fun _ => .own .require fun _ => hrest

theorem Signs.of_await (loc : Loc) : of lib v logs (.expr role (.await loc e)) =
    foreign (v.number < 11) ⊔ of lib v logs (.expr .value e) := by
  have hsigns : (fun _ => Use.signs v logs (.expr role (.await loc e))) =
      foreign (v.number < 11) := by
    rw [Use.signs_of_unchecked rfl]
    simp [Use.isHandler, Use.isBlock, Use.isSuspension]
  -- An awaited call is the body of a frame of its own, anything else stands in the frame at hand.
  cases e
  case call loc callee arguments =>
    rw [of_body rfl rfl, hsigns, show Use.uses v _ = [] from rfl, all_nil, bot_sup_eq]
    rfl
  all_goals rw [of_inner rfl rfl, hsigns, show Use.uses v _ = [_] from rfl, all_singleton]

theorem classDef_evinces {c : ClassCode} (loc : Loc) (isStatic : Bool)
    (h : Evinces v D (runAll c.body)) : Evinces v D (classDef v loc c isStatic) := by
  unfold classDef
  split
  · exact .reject
  · refine .own .require fun _ => .own (.pushScope _) fun _ => ?_
    intro s _ t hr
    simp only [bind_ok] at hr
    obtain ⟨_, r1, h1, _, r2, h2, _, r3, h3, _, r4, h4, _, r5, h5, h6⟩ := hr
    obtain rfl := modify_ok.1 h1
    obtain rfl := modify_ok.1 h5
    obtain ⟨hopens, hdepth⟩ := openClass_opensBody loc c _ isStatic h2
    obtain ⟨U, bs, hbody, hnested⟩ := h h3
    obtain ⟨hmodules, bs', hcloses, hbs'⟩ := leaveModuleScope_evidence h4
    obtain ⟨hmodules', bs'', hexits, hbs''⟩ := setExit_evidence h6
    -- Entering and leaving a module changes nothing else.
    have hpath (s : Session) (m : ModuleTree) : Evidence v ⊥ ∅ ∅ [] s { s with modules := m } :=
      .of_map (fun _ hf => hf) rfl fun _ => rfl
    have hall := (((hpath s _).trans hopens).trans hbody).trans
      ((hcloses.trans (hpath r4 _)).trans hexits)
    simp only [bot_sup_eq, sup_bot_eq, Set.empty_union, Set.union_empty, List.nil_append,
      List.append_nil] at hall
    refine ⟨U, _, by rwa [Set.empty_union], fun k hk => ?_⟩
    obtain ⟨hdepth3, hinner⟩ := hnested (k + 1) (hdepth.trans (congrArg Nat.succ hk))
    refine ⟨?_, fun hv => ?_⟩
    · rw [hmodules', hmodules]
      exact ModuleTree.depth_leave hdepth3
    · rw [hbs' k hv hdepth3, hbs'' hv]
      simpa using Nested.body (hinner hv) .nil

end

theorem Signs.all_steps (ds : List Declarator) :
    all lib v logs (ds.flatMap (Declarator.steps v)) = all lib v logs (ds.flatMap Declarator.uses) := by
  have hmem (d : Declarator) (u : Use) : u ∈ d.steps v ↔ u ∈ d.uses := by
    unfold Declarator.steps Declarator.uses
    split <;> simp [or_comm]
  unfold Signs.all
  simp only [List.mem_flatMap, hmem]

theorem Evinces.since_foreign {n : Nat} {op : Operation} {line : UInt32} (h : op.span = (n, 13))
    (hop : op.isDirect = true) (hs : op.isUnmarked = true) :
    Evinces v (.foreign (v.number < n)) (Emit.emit v op line) := by
  rw [← propext (Operation.isAdmitted_eq_false_iff op h)]
  exact .emitForeign hop hs _

/-- What is shown of the version, also by statements. -/
abbrev evidenceOfStmts (lib : Library) (v : Version) (logs : Bool) : StmtJudgment v logs where
  toJudgment := evidenceOf lib v logs
  add_comm := sup_comm
  runs h s r t hr := by
    obtain ⟨y, hy, hr⟩ := h hr
    exact hy hr
  inert hx := by
    cases hx with
    | frame => exact .neutral .frame
    | here => exact .here
    | jump h => exact .jump h
    | logicalJump => exact logicalJump_evinces _ _
    | jumpBack => exact .add (Operation.isAdmitted_of_always rfl) rfl
    | jumpTo => exact .jumpTo _ _
    | patch => exact .patch _ _
    | takeBreaks => exact .takeBreaks
    | takeContinues => exact .takeContinues
    | noteBreak => exact .onFrame (Draft.noted_blind _ _).1
    | noteContinue => exact .onFrame (Draft.noted_blind _ _).2
    | dropDepth => exact .onFrame (Draft.dropDepth_blind _)
    | setState => exact .setState _
    | untracked =>
      exact .emitUntracked (Evinces.stateOperation_admitted _).1 (Evinces.stateOperation_admitted _).2
    | markReturn => exact .neutral markReturn_neutral
    | symbol => exact .neutral (.symbol _)
    | plainSymbol => exact .neutral (.plainSymbol _)
    | operatorSymbol => exact .neutral (.operatorSymbol _ _)
    | temporary => exact .neutral (.temporary _)
    | pathSymbols => exact .neutral (.pathSymbols _)
    | @named op _ _ h => exact Evinces.plain h (by cases op <;> first | rfl | cases h)
    | @pathed op _ _ h =>
      cases op <;> first | exact Evinces.plain rfl rfl | exact absurd rfl h
    | readName => exact .readName _ _
    | importName => exact importName_evinces _ _ _ _
    | setSource => exact .neutral (setSource_neutral _)
    | warnAwait => exact .unattached rfl (.warn _)
  coalesce hv hx := .added (w := .coalesce) rfl (Operation.isAdmitted_of_has hv rfl) rfl rfl fun k =>
    .last hx fun _ => .own (.patchHere _) fun _ => .warn _
  closed D := D
  closed_zero := rfl
  closed_add _ _ := rfl
  closed_closed _ := rfl
  closed_stmt _ := rfl
  enclosed _ _ hx := .own (.pushScope _) fun _ => .last hx fun _ => .leaveScope _
  temps _ := ⊥
  temps_add _ := sup_idem _
  idle _ hx := by
    dsimp only
    rwa [bot_sup_eq]
  pushTemporary _ _ := .pushName _ _ _
  readTemporary _ _ := .readTemporary _ _
  called := ⊥
  emitCall _ _ := Evinces.plain rfl rfl
  handler := .foreign (v.number < 10)
  catches hop := by rcases hop with rfl | rfl <;> exact .since_foreign rfl rfl rfl
  suspension := .foreign (v.number < 11)
  suspends hop := by rcases hop with rfl | rfl <;> exact .since_foreign rfl rfl rfl
  framed n := .of lib v logs n.use
  Frames n x := Tells lib v logs [n.use] x
  defines _ := ⊥
  defines_nil := rfl
  readyNil := ⟨fun _ => .pure _, fun child s d t h => by rw [(pure_ok.1 h).1]⟩
  readyCons hf hg := by
    refine ⟨fun child => .bind (hf.evinces child) fun d => hg.evinces d, fun child s d t h => ?_⟩
    obtain ⟨c, r, h1, h2⟩ := bind_ok.1 h
    exact (hg.code h2).trans (hf.code h1)
  closure loc isMethod hparams hbody := by
    dsimp only
    rw [sup_comm, ← Signs.all_singleton]
    exact closure_evinces loc isMethod hparams hbody
  subroutine loc isMethod hparams hbody := by
    dsimp only
    rw [bot_sup_eq, sup_comm, ← Signs.all_singleton]
    exact subroutine_evinces loc isMethod hparams fun _ _ _ h => (hbody h).2
  routine_all {u n} hn hu := by
    have hu : u.part.path? = none ∧ u.checked? = none ∧
        (u.isHandler || u.isBlock || u.isSuspension) = false := by
      rcases u with ⟨role, e⟩ | s
      · cases e <;> first | exact ⟨rfl, rfl, rfl⟩ | cases hn | cases hu
      · cases s <;> first | exact ⟨rfl, rfl, rfl⟩ | cases hn
    dsimp only
    rw [Signs.all_singleton, Signs.of_routine hn hu.1 hu.2.1 hu.2.2, bot_sup_eq, sup_comm]
  selfValue _ loc := selfValue_evinces loc
  yield_all role loc := by
    dsimp only
    rw [Signs.all_singleton, Signs.of_inner rfl rfl, Use.signs_of_unchecked rfl,
      show Use.uses v _ = [] from rfl, Signs.all_nil, sup_bot_eq]
    simp [Use.isHandler, Use.isBlock, Use.isSuspension]
  awaits role loc e hx := by
    have htask : (Part.expr (.await loc e)).body?.elim (Signs.all lib v logs [.expr .value e])
        (fun n => .of lib v logs n.use) = .of lib v logs (.expr .value e) := by
      rw [Signs.all_singleton]
      cases e <;> rfl
    dsimp only at hx ⊢
    rw [htask, bot_sup_eq, bot_sup_eq, sup_bot_eq, sup_comm] at hx
    rwa [Signs.all_singleton, Signs.of_await]
  delegate := delegate_evinces
  classDef {d c} loc isStatic hbody := by
    dsimp only
    rw [Signs.all_singleton, Signs.of_quiet rfl]
    exact classDef_evinces loc isStatic hbody
  class_all role loc d := by
    dsimp only
    rw [Signs.all_singleton, Signs.of_quiet rfl, Signs.all_singleton, Signs.of_quiet rfl]
    rfl
  static_all role outer loc d := by
    dsimp only
    rw [Signs.all_singleton, Signs.of_quiet rfl, show Use.uses v _ = [_] from rfl, Signs.all_singleton,
      Signs.of_quiet rfl, Signs.all_singleton, Signs.of_quiet rfl]
    rfl
  transparent_all {s} hs := by
    have hquiet : (Use.stmt s).isQuiet = true := by
      cases s with
      | function loc r =>
        obtain ⟨_ | _, _, _⟩ := r
        · rfl
        · cases hs
      | _ => first | rfl | cases hs
    dsimp only
    rw [Signs.all_singleton, Signs.of_quiet hquiet]
    rfl
  scope_all {s} hs hb := by
    have hapart : (Use.stmt s).isApart = false := by
      cases s <;> first | rfl | (cases hb; done) | cases hs
    have hstem : (Part.stmt s).stem?.elim (⊥ : Signs) (fun _ => ⊥) = ⊥ := by
      cases (Part.stmt s).stem? <;> rfl
    dsimp only
    rw [Signs.all_singleton, Signs.of_not_isApart hapart, hstem, bot_sup_eq]
    rfl
  declared loc hx := by
    dsimp only at hx
    rw [bot_sup_eq, Signs.all_steps] at hx
    exact Evinces.node rfl hx
  finalizer_all loc e := by
    dsimp only
    rw [Signs.all_singleton, Signs.of_quiet rfl, bot_sup_eq]
    rfl
  tried loc hx := Evinces.node rfl hx
  caught _ := .foreign (v.number < 10)
  caughtUnnamed hx := hx
  caughtNamed _ hx := by
    dsimp only at hx
    rwa [bot_sup_eq, sup_bot_eq] at hx
  triedCaught loc hx := by
    dsimp only
    rw [Signs.all_singleton, Signs.of_inner rfl rfl, Use.signs_of_unchecked rfl]
    simpa [Use.isHandler, Use.isBlock, Use.isSuspension, Use.uses, Stmt.uses] using hx
  logged := .foreign (v.number < 10 ∧ logs = true)
  logged_eq := by
    cases logs with
    | false => rw [Signs.foreign_of_not (by simp)]; rfl
    | true => simp
  inside loc ss := .all lib v logs [.stmt (.block loc ss)]
  closed_inside _ _ := rfl
  insides {x ss} loc hx := by
    have hall : Tells lib v logs [.stmt (.block loc ss)] x := by
      rw [Tells, Signs.all_singleton, Signs.of_inner rfl rfl, Use.signs_of_unchecked rfl]
      simpa [Use.isHandler, Use.isBlock, Use.isSuspension, Use.uses, Stmt.uses] using hx
    exact ⟨hall, hall⟩

theorem includeFile_evinces {cx : Context} (loc : Loc) (path : String)
    (h : ∀ ss, Tells (cx.library none) cx.version logs (ss.map .stmt) (cx.follow ss)) :
    Tells (cx.library none) cx.version logs [.stmt (.includeFile loc path)]
      (includeFile cx loc path) := by
  intro s u t hr
  obtain ⟨location, program, r, folder, h1, hidle, hfolder, -, hlocate, hread, h2⟩ :=
    includeFile_ok (fun f (hf : none = some f) => nomatch hf) hr
  have hrest : Evidenced cx.version ∅ (.all (cx.library none) cx.version logs (program.body.map .stmt))
      r t := included_holds (J := evidenceOfStmts (cx.library none) cx.version logs) (h program.body) h2
  obtain ⟨U, bs, hevidence, hnested⟩ := (Evidenced.of_bare (congrArg List.length hidle.path)
    (.of_still hidle.still hidle.warnings)).trans hrest
  rw [bot_sup_eq, Set.union_empty] at hevidence
  refine ⟨U, bs, { hevidence with since := fun f n ht => ?_, foreign := fun f ht => ?_ }, hnested⟩
  all_goals
    -- Once the file has been looked for, only one folder is left.
    obtain rfl : f = folder := by
      obtain ⟨_, _, hafter, _⟩ := hrest
      rcases hafter.looks ht with hf | hf
      · rw [hfolder] at hf
        cases hf
      · exact Option.some.inj (hf.symm.trans hfolder)
    have hi : ((cx.library none).at f).Includes path program :=
      Library.at_includes.2 ⟨location, hlocate, hread⟩
    rw [Signs.all_singleton, Signs.mem_of_include hi]
  · exact hevidence.since ht
  · exact hevidence.foreign ht

theorem Stmt.evidenced (o : Options) (sources : Sources) (depth : Nat) (s : Stmt) :
    StmtJudged (evidenceOfStmts ⟨sources, none, o.projectFolder⟩ o.version o.logsExceptions) s
      (s.code (o.context sources depth)) := by
  refine Stmt.judged ?_ depth s
  exact fun follow loc path h =>
    @includeFile_evinces o.logsExceptions (o.following sources follow) loc path h

end Adhoc
