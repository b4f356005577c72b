import Adhoc.Proofs.FollowRoutine
import Adhoc.Proofs.JudgedCode

namespace Adhoc

open Emit List Use

variable {α : Type} {lib : Library} {v : Version} {logs : Bool} {x : Emit α} {s : Stmt}

section

theorem updateFirst_bare {p : Scope → Bool} {f : Scope → α × Scope}
    (hf : ∀ c, (f c).2.bare = c.bare) {scopes scopes' : List Scope} {r : α}
    (h : Draft.updateFirst p f scopes = some (r, scopes')) :
    scopes'.map Scope.bare = scopes.map Scope.bare := by
  induction scopes generalizing scopes' with
  | nil => cases h
  | cons c rest ih =>
    unfold Draft.updateFirst at h
    split at h
    · simp only [Option.some.injEq, Prod.mk.injEq] at h
      obtain ⟨-, rfl⟩ := h
      simp [hf]
    · simp only [Option.map_eq_some_iff, Prod.mk.injEq, Prod.exists] at h
      obtain ⟨r', rest', h, rfl, rfl⟩ := h
      simp [ih h]

theorem addBreak_bare (k : Nat) (c : Scope) : (c.addBreak k).2.bare = c.bare := by
  unfold Scope.addBreak
  split <;> rfl

theorem addContinue_bare (k : Nat) (c : Scope) : (c.addContinue k).2.bare = c.bare := by
  unfold Scope.addContinue
  split <;> rfl

theorem noted_rests {s t : Session} {d : Draft} {scopes : List Scope}
    (hd : d = { s.frame with scopes := scopes })
    (h : scopes.map Scope.bare = s.frame.scopes.map Scope.bare) (ht : t = s.at d) : s.Rests t := by
  subst hd ht
  exact ⟨⟨.refl _, fun _ hf => hf⟩, ⟨rfl, rfl, rfl, rfl⟩, rfl, h, rfl, rfl, rfl⟩

theorem noted_follows (label : Option String) (k : Nat) :
    Follows v lib.includeFolder 0 (onFrame (Draft.noteBreak label k)) ∧
      Follows v lib.includeFolder 0 (onFrame (Draft.noteContinue label k)) := by
  constructor <;> refine .rests fun s r t h => ?_
  all_goals
    obtain ⟨d, hd, rfl⟩ := onFrame_ok.1 h
    simp only [Draft.noteBreak, Draft.noteContinue] at hd
    split at hd <;> cases hd
    · exact .of_frame (.refl _) rfl
  · exact noted_rests rfl (updateFirst_bare (addBreak_bare k) ‹_›) rfl
  · exact noted_rests rfl (updateFirst_bare (addContinue_bare k) ‹_›) rfl

theorem inert_follows (hx : Inert v x) : Follows v lib.includeFolder 0 x := by
  cases hx with
  | frame => exact .frame
  | here => exact .here
  | jump | logicalJump => exact .jump _ _
  | jumpBack => exact .add rfl
  | jumpTo => exact .jumpTo _ _
  | patch => exact .patch _ _
  | takeBreaks => exact .takeBreaks
  | takeContinues => exact .takeContinues
  | noteBreak => exact (noted_follows _ _).1
  | noteContinue => exact (noted_follows _ _).2
  | dropDepth => exact .dropDepth _
  | setState => exact .setState _
  | untracked => exact .emitUntracked (Follows.stateOperation_isSilent _)
  | markReturn =>
    refine .change fun s => ?_
    split
    · exact ⟨⟨.refl _, fun _ hf => hf⟩, ⟨rfl, rfl, rfl, rfl⟩, rfl, rfl, rfl, rfl, rfl⟩
    · exact .of_frame (.refl _) rfl
  | symbol => exact .symbol _
  | plainSymbol => exact .plainSymbol _
  | operatorSymbol => exact .operatorSymbol _ _
  | temporary => exact .temporary _
  | pathSymbols => exact .pathSymbols _
  | named | pathed => exact .emit rfl
  | readName => exact .readName _ _
  | importName => exact importName_follows _ _ _ _
  | setSource =>
    exact .change fun _ => ⟨⟨.refl _, fun _ hf => hf⟩, ⟨rfl, rfl, rfl, rfl⟩, rfl, rfl, rfl, rfl, rfl⟩
  | warnAwait => exact .warn _

theorem enclosed_follows {folder : Option String} {a : Deeds} {x : Emit Unit} (kind : ScopeKind)
    (leaves : Bool) (hx : Follows v folder a x) : Follows v folder a.inScope (do
      pushScope kind
      x
      leaveScope v leaves) := by
  intro s _ t hs h
  obtain ⟨_, r, h1, h⟩ := bind_ok.1 h
  obtain rfl := pushScope_ok.1 h1
  obtain ⟨_, u, h2, hleave⟩ := bind_ok.1 h
  obtain ⟨ds, hc, hb⟩ := hx (s := s.open kind) hs h2
  have hb : a.Bound v ds s.frame u.frame := ⟨hb.may, hb.must, hb.code.calls, hb.code.frames⟩
  exact ⟨_, (Course.nil s).scope hc hleave, hb.inScope (leaveScope_leaves hleave).brings⟩

end

/-- What a body under a handler that logs exceptions takes for itself. -/
def Deeds.logged (logs : Bool) : Deeds :=
  if logs then .bound true [exceptionName] + .temporaries "catch" + .called 1 else 0

namespace Deeds

theorem logged_within (loc : Loc) (ss : List Stmt) :
    (logged logs).Within (own logs (.stmt (.block loc ss))) := by
  rw [own, show (Part.stmt (.block loc ss)).members = [] from rfl, members_nil, add_zero, logged]
  cases logs with
  | true =>
    rw [if_pos rfl, bound, temporaries, ← owned_union]
    refine .add (.owned ?_) ⟨Set.Subset.rfl, Set.Subset.rfl, fun n hn => by cases hn⟩
    rintro name (⟨-, n, hn, rfl⟩ | h)
    · obtain rfl := mem_singleton.1 hn
      exact .logged rfl
    · exact .temporary rfl h
  | false => exact .owned_add _ 0

theorem of_isScope (hs : (Part.stmt s).isScope = true) (hb : (stmt s).isBlock = false) :
    of lib v logs (.stmt s) = ((Part.stmt s).stem?.elim 0 temporaries +
      all lib v logs (s.uses.map part)).inScope := by
  have hown : own logs (.stmt s) = (Part.stmt s).stem?.elim 0 temporaries := by
    rw [own_eq]
    · cases (Part.stmt s).stem? <;> rfl
    all_goals cases s <;> first | rfl | (cases hb; done) | (cases hs; done) | simp
  have hparts : s.parts v = s.uses.map part := by
    cases s
    case foreach loc left right body => cases left <;> rfl
    case block => cases hb
    case forLoop =>
      simp only [Stmt.parts, Stmt.uses, map_append, map_map]
      exact congrArg (· ++ _ ++ _ ++ _) (map_congr_left fun n _ => n.part_use.symm)
    case ifElse | «switch» => simp [Stmt.parts, Stmt.uses, Function.comp_def]
    all_goals first | rfl | cases hs
  rw [of_scope hs, hown, ← hparts]
  rfl

end Deeds

/-- What is done to the names of the frame, also by statements. -/
abbrev followingStmts (lib : Library) (v : Version) (logs : Bool) : StmtJudgment v logs where
  toJudgment := following lib v logs
  add_comm := add_comm
  runs h s r t hs hr := by
    obtain ⟨y, hy, hr⟩ := h hr
    exact hy hs hr
  inert hx := inert_follows hx
  coalesce _ hx := .own (Follows.jump _ _) fun _ => .last hx fun _ => .own (.patchHere _) fun _ => .warn _
  closed a := a.inScope
  closed_zero := Deeds.inScope_zero
  closed_add := Deeds.inScope_add
  closed_closed := Deeds.inScope_inScope
  closed_stmt {s} hs := by
    dsimp only
    rw [Deeds.all_use, part]
    cases s
    case block => rw [Deeds.of_scope rfl, Deeds.inScope_inScope]
    case continueLoop | breakOut => rw [Deeds.of_leaf rfl rfl rfl rfl, Deeds.inScope_zero]
    all_goals cases hs
  enclosed := enclosed_follows
  temps := .temporaries
  temps_add := Deeds.temporaries_add
  idle _ hx := hx.mono (.owned_add _ _)
  pushTemporary loc h := .pushTemporary loc h
  readTemporary line h := .readsTemporary line h
  called := .called 1
  emitCall _ _ := .call rfl rfl
  handler := 0
  catches hop := by rcases hop with rfl | rfl <;> exact .emit rfl
  suspension := 0
  suspends hop := by rcases hop with rfl | rfl <;> exact .emit rfl
  framed n := .called (n.part.calls logs)
  Frames n x := ∃ a, Follows v lib.includeFolder a x ∧ a.calls = n.part.calls logs
  defines := .members
  defines_nil := Deeds.members_nil
  readyNil := ⟨fun _ => .pure _, fun _ _ _ _ _ _ hc h => by
    obtain ⟨rfl, rfl⟩ := pure_ok.1 h
    exact hc⟩
  readyCons hf hg := by
    refine ⟨fun child => .bind (hf.follows child) fun d => hg.follows d, fun _ s _ _ _ hs hc h => ?_⟩
    obtain ⟨d, r, h1, h2⟩ := bind_ok.1 h
    obtain ⟨ds, hcourse, -⟩ := hf.follows _ hs h1
    exact hg.prepares (hcourse.widens.settled hs) (hf.prepares hs hc h1) h2
  closure {a _ n _} loc isMethod hparams hbody := by
    have hcalls : (Deeds.all lib v logs ([n.use].map part)).calls = n.part.calls logs := by
      cases n <;> simp [Deeds.all, Node.part, Node.use]
    have hclosure := closure_follows loc isMethod hparams hbody
    rw [hcalls, add_comm] at hclosure
    exact hclosure
  subroutine loc isMethod hparams hbody := subroutine_follows loc isMethod hparams hbody
  routine_all {u n} hn hu := by
    dsimp only
    rw [Deeds.all_use]
    have hquiet : u.part.isQuiet = true ∧ u.part.parts v = (u.uses v).map part ∧
        u.part.aside logs = n.part.calls logs := by
      rcases u with ⟨role, e⟩ | s
      · cases e <;> first
          | (cases hn; exact ⟨rfl, (map_part_exprs _ _).symm, Part.aside_eq rfl rfl⟩)
          | cases hn
          | cases hu
      · cases s with
        | function loc r =>
          obtain ⟨_ | id, params, body⟩ := r <;> cases hn
          exact ⟨rfl, (map_part_exprs _ _).symm, Part.aside_eq rfl rfl⟩
        | method loc r =>
          cases hn
          exact ⟨rfl, (map_part_exprs _ _).symm, Part.aside_eq rfl rfl⟩
        | _ => cases hn
    rw [Deeds.of_quiet hquiet.1, hquiet.2.1, hquiet.2.2, add_assoc]
  selfValue role loc := by
    refine Covers.taking {"self"} rfl rfl rfl rfl (show _ = 0 from rfl) ?_ ?_
    · rintro _ rfl
      exact .self loc
    · simpa [Part.parts, Expr.parts] using Follows.selfValue loc
  yield_all _ _ := by
    dsimp only
    rw [Deeds.all_use]
    exact Deeds.of_leaf rfl rfl rfl rfl
  awaits role loc e hx := by
    dsimp only at hx
    refine Covers.taking {name | Symbol.IsTemporary "task" name} rfl rfl rfl rfl
      (show _ = 1 + 1 + _ from rfl) (fun _ => .temporary rfl) ?_
    have htask : (Part.expr (.await loc e)).body?.elim (Deeds.of lib v logs (.expr e))
        (fun n => .called (n.part.calls logs)) = .all lib v logs (Expr.parts v (.await loc e)) +
          .called ((Part.expr (.await loc e)).others.map (Part.calls logs)).sum := by
      cases e <;> simp [Part.others, Part.body?, Expr.parts, Deeds.all_singleton]
    have hsum (a b c d : Deeds) : a + (b + b + c) + d = d + c + (b + (a + (0 + b))) := by
      rw [zero_add]
      ac_rfl
    rw [Deeds.all_use, part, htask] at hx
    rw [Deeds.called_add, Deeds.called_add, hsum]
    exact hx
  delegate loc id := by
    have hmembers : (Part.stmt (.delegate loc id)).members = id.ident?.toList := by cases id <;> rfl
    refine Covers.definition rfl hmembers (Part.aside_eq rfl rfl) ?_
    simpa [Part.parts, Stmt.parts] using delegate_follows loc id
  classDef {d c} loc isStatic hbody := by
    dsimp only
    rw [Deeds.all_use, part, Deeds.of_class rfl]
    dsimp only at hbody
    rw [map_part_stmts] at hbody
    exact classDef_follows loc isStatic hbody
  class_all role loc d := by
    dsimp only
    rw [Deeds.all_use, Deeds.all_use, part, part, Deeds.of_class rfl, Deeds.of_class rfl]
    rfl
  static_all role outer loc d := by
    dsimp only
    rw [Deeds.all_use, Deeds.all_use, part, part, Deeds.of_quiet rfl, show Part.aside _ (.expr _) = 0 from rfl,
      show Part.members (.expr _) = [] from rfl, Deeds.members_nil, Deeds.called_zero, zero_add, zero_add,
      show Part.parts v _ = [_] from rfl, Deeds.all_singleton, Deeds.of_class rfl, Deeds.of_class rfl]
    rfl
  transparent_all {s} hs := by
    dsimp only
    rw [Deeds.all_use, part]
    have hof {s : Stmt} (hq : (Part.stmt s).isQuiet = true) (hm : (Part.stmt s).members = [])
        (ha : (Part.stmt s).aside logs = 0) (hp : s.parts v = s.uses.map part) :
        Deeds.of lib v logs (.stmt s) = .all lib v logs (s.uses.map part) := by
      rw [Deeds.of_quiet hq, hm, ha, Deeds.members_nil, Deeds.called_zero, zero_add, zero_add, ← hp]
      rfl
    cases s with
    | function loc r =>
      obtain ⟨_ | id, params, body⟩ := r <;> cases hs
      exact hof rfl rfl rfl rfl
    | _ => first | exact hof rfl rfl rfl rfl | cases hs
  scope_all {s} hs hb := by
    dsimp only
    rw [Deeds.all_use, part, Deeds.of_isScope hs hb, zero_add]
  declared {_ _ ds} loc hx := by
    dsimp only at hx
    rw [Declarator.map_part_steps, ← add_zero (Deeds.bound ..), ← Deeds.called_zero] at hx
    refine Covers.taking _ rfl rfl rfl rfl rfl ?_ hx
    rintro _ ⟨-, n, hn, rfl⟩
    exact .declared hn
  finalizer_all loc e := by
    dsimp only
    rw [Deeds.all_use, part, Deeds.of_eq rfl rfl rfl,
      Deeds.own_eq rfl rfl rfl (by simp) (by simp)]
    rfl
  tried {_ _ tried last} loc hx := by
    refine Covers.taking ∅ rfl rfl rfl rfl (show _ = 0 from rfl) (fun _ h => (nomatch h)) ?_
    rw [Deeds.called_zero, add_zero]
    refine Follows.mono ?_ (.owned_add _ _)
    simpa [Part.parts, Stmt.parts, Function.comp_def] using hx
  caught param := .bound true (param.bind Expr.ident?).toList + .temporaries "catch" +
    .called ((param.toList.map .expr).map (Part.calls logs)).sum
  caughtUnnamed hx := by
    refine hx.mono ?_
    rw [Deeds.bound, Deeds.temporaries, ← Deeds.owned_union]
    exact .owned_add _ 0
  caughtNamed hname hx := by
    dsimp only at hx ⊢
    simpa [hname, Expr.calls_of_ident hname] using hx
  triedCaught {_ _ tried h last} loc hx := by
    dsimp only at hx
    rw [Deeds.bound, Deeds.temporaries, ← Deeds.owned_union, map_cons, map_cons,
      map_part_stmts] at hx
    refine Covers.taking _ rfl rfl rfl rfl (zero_add _) ?_ hx
    rintro name (⟨-, n, hn, rfl⟩ | h)
    · exact .declared hn
    · exact .temporary rfl h
  logged := .logged logs
  logged_eq := by
    dsimp only
    rw [zero_add]
    rfl
  inside loc ss := .own logs (.stmt (.block loc ss)) + .all lib v logs (ss.map .stmt)
  closed_inside loc ss := by
    dsimp only
    rw [Deeds.all_use, part, Deeds.of_scope rfl]
    rfl
  insides {x ss} loc hx := by
    dsimp only at hx
    rw [map_part_stmts] at hx
    have hin : Follows v lib.includeFolder
        (.own logs (.stmt (.block loc ss)) + .all lib v logs (ss.map .stmt)) x :=
      hx.mono (.add (Deeds.logged_within loc ss) (.refl _))
    refine ⟨hin, _, hin, ?_⟩
    rw [Deeds.add_calls, Deeds.own_calls]
    exact ((Part.stmt _).calls_eq _ v).symm

section

variable {path : String} {loc : Loc}

theorem locateInclude_follows (cx : Context) (loc : Loc) (path : String) :
    Follows v lib.includeFolder 0 (locateInclude cx loc path) := by
  refine .own (.rests fun s r t h => ?_) fun folder => .ite (.pure _) ?_
  · unfold includeFolder at h
    cases hf : s.includeFolder <;> simp only [hf, Except.ok.injEq, Prod.mk.injEq] at h
    · obtain ⟨-, rfl⟩ := h
      exact .of_frame ⟨.refl _, fun f hf' => by simp [hf] at hf'⟩ rfl
    · obtain ⟨-, rfl⟩ := h
      exact .of_frame (.refl _) rfl
  · split
    · exact .ite (.pure _) .reject
    · exact .reject

theorem Deeds.Bound.included {program : Program} {ds : List Deed} {d e f : Draft}
    (hi : lib.Includes path program) (hf : f.Brings v 0 d)
    (h : (all lib v logs (program.body.map .stmt)).Bound v ds d e) :
    (of lib v logs (.stmt (.includeFile loc path))).Bound v ds f e where
  code := ⟨fun n hn => (nomatch hn), (hf.trans h.code).frames⟩
  may d hd := by
    obtain ⟨p, hp, hdoes⟩ := h.may d hd
    obtain ⟨s, hs, rfl⟩ := mem_map.1 hp
    exact .included trivial hi hs hdoes
  must d hd := by
    cases hd.1 with
    | takes ht =>
      cases ht with
      | declared h | temporary h => cases h
    | member h | part _ _ h | encloses h | closed h => cases h
    | included hvia hi' hs hdoes =>
      obtain rfl := hi.eq hi' hvia
      exact h.must d ⟨_, mem_map_of_mem hs, hdoes, hd.2⟩

theorem includeFile_covers {cx : Context} {folder : Option String}
    (h : ∀ ss, (followingStmts (cx.library folder) cx.version logs).Lowers (ss.map .stmt)
      (cx.follow ss)) :
    Covers (cx.library folder) cx.version logs [.stmt (.includeFile loc path)]
      (includeFile cx loc path) := by
  refine .of_part ?_
  intro s _ t hs hr
  obtain ⟨location, program, r, first, h1, -, -, hincludes, -, -, hrest⟩ := includeFile_ok hs hr
  obtain ⟨es, hlocated, hes⟩ := locateInclude_follows (v := cx.version) cx loc path hs h1
  obtain ⟨ds, hcourse, hds⟩ := included_holds
    (J := followingStmts (cx.library folder) cx.version logs) (h program.body)
    (hlocated.widens.settled hs) hrest
  dsimp only at hds
  rw [map_part_stmts] at hds
  refine ⟨_, hlocated.trans hcourse, ?_⟩
  rw [hes.eq_nil, nil_append]
  exact hds.included hincludes hes.code

end

section

variable (o : Options) (sources : Sources) (depth : Nat) (folder : Option String)

theorem following_covers_includes :
    (followingStmts ⟨sources, folder, o.projectFolder⟩ o.version o.logsExceptions).CoversIncludes o
      sources :=
  fun follow _ _ h => @includeFile_covers o.logsExceptions _ _ (o.following sources follow) folder h

/-- A statement of a compiled program follows its course, with the files that can be included. -/
theorem Stmt.follows (s : Stmt) : StmtJudged (followingStmts ⟨sources, folder, o.projectFolder⟩
    o.version o.logsExceptions) s (s.code (o.context sources depth)) :=
  Stmt.judged (following_covers_includes o sources folder) depth s

theorem Stmt.follows_scope (hscoped : s.isScoped = true) {q t : Session} (hq : q.Settled folder)
    (h : (s.code (o.context sources depth)).run q = .ok ((), t)) :
    ∃ kind ds u, Course o.version ds (q.open kind) u ∧
      leaveScope o.version s.leaves u = .ok ((), t) ∧ (.encloses ∈ ds → .encloses ∈
        (Deeds.of ⟨sources, folder, o.projectFolder⟩ o.version o.logsExceptions (.stmt s)).may) := by
  obtain ⟨-, k, a, hscope, ha⟩ := (s.follows o sources depth folder).scope hscoped
  obtain ⟨kind, b, y, u, hb, hy, hu, hleave⟩ := hscope h
  obtain ⟨ds, hc, hbound⟩ := hy (s := q.open kind) hq hu
  refine ⟨kind, ds, u, hc, hleave, fun he => ?_⟩
  dsimp only at ha hb
  rw [← Deeds.all_singleton]
  refine ha ▸ .inr ?_
  rw [← hb]
  exact ⟨hbound.may _ he, rfl⟩

theorem Expr.follows (e : Expr) : ExprJudged (following ⟨sources, folder, o.projectFolder⟩
    o.version o.logsExceptions) e (e.code (o.context sources depth)) :=
  Expr.isJudged (following_covers_includes o sources folder) depth e

theorem Node.follows (n : Node) : NodeJudged (followingStmts ⟨sources, folder, o.projectFolder⟩
    o.version o.logsExceptions) n (n.code (o.context sources depth)) := by
  cases n with
  | stmt s => exact .stmt (Stmt.follows o sources depth folder s)
  | expr e => exact .expr (Expr.follows o sources depth folder e)

theorem closureBody_follows (n : Node) : Follows o.version folder
    (.of ⟨sources, folder, o.projectFolder⟩ o.version o.logsExceptions n.part)
    (closureBody o.version (n.code (o.context sources depth))) := by
  rw [← n.part_use]
  exact Covers.part (closureBody_lowers (Node.follows o sources depth folder n))

theorem parameters_follows (es : List Expr) : FollowsIn o.version folder
    (.all ⟨sources, folder, o.projectFolder⟩ o.version o.logsExceptions (es.map .expr))
    (parameters (exprCodes (o.context sources depth) es)) := by
  have hparams := parameters_readies (J := followingStmts ⟨sources, folder, o.projectFolder⟩ o.version
    o.logsExceptions) (exprCodes_forall₂ fun e (_ : e ∈ es) => Expr.follows o sources depth folder e)
  dsimp only at hparams
  rwa [map_map] at hparams

theorem ClassDef.follows (d : ClassDef) (loc : Loc) (isStatic : Bool) : Follows o.version folder
      (.of ⟨sources, folder, o.projectFolder⟩ o.version o.logsExceptions (.stmt (.classDef loc d)))
      (classDef o.version loc (d.code (o.context sources depth)) isStatic) := by
  obtain ⟨id, superClass, body, isModule⟩ := d
  have hbody := runAll_lowers (stmtCodes_forall₂ fun s (_ : s ∈ body) =>
    Stmt.follows o sources depth folder s)
  have hclass := (followingStmts ⟨sources, folder, o.projectFolder⟩ o.version o.logsExceptions).classDef
    (d := ⟨id, superClass, body, isModule⟩)
    (c := ClassDef.code (o.context sources depth) ⟨id, superClass, body, isModule⟩) loc isStatic hbody
  exact Covers.part hclass

theorem Program.follows (p : Program) : Follows o.version none
    (Deeds.logged o.logsExceptions + .all ⟨sources, none, o.projectFolder⟩ o.version o.logsExceptions
      (p.body.map .stmt)).inScope (p.code (o.context sources depth)) := by
  have hbody := body_holds (stmtCodes_forall₂ fun s (_ : s ∈ p.body) => Stmt.follows o sources depth none s)
  dsimp only at hbody
  rw [map_part_stmts] at hbody
  have hall := Follows.last (enclosed_follows .block true hbody) fun _ => .setState .exit
  rw [Program.code_context]
  simpa only [bind_assoc] using hall

theorem Program.course {p : Program} {s t : Session}
    (h : p.code (o.context sources depth) s = .ok ((), t)) : ∃ ds, Course o.version ds s t := by
  obtain ⟨ds, hc, -⟩ := p.follows o sources depth (fun _ hf => nomatch hf) h
  exact ⟨ds, hc⟩

end

end Adhoc
