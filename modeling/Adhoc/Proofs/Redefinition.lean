import Adhoc.Proofs.StaticSlots

namespace Adhoc

open Emit List Draft

variable {v : Version} {ds : List Deed} {x : Symbol}

namespace Draft

variable {d e f : Draft}

/-- The frame is made further, and its innermost scope is still open. -/
structure Continues (v : Version) (d e : Draft) : Prop where
  leads : d.Leads v True e
  stays : d.Stays e
  notes : d.top.Notes e.top

theorem Continues.refl (d : Draft) : d.Continues v d := ⟨.refl, .of_bare rfl, .refl _⟩

theorem Continues.trans (h : d.Continues v e) (h' : e.Continues v f) : d.Continues v f :=
  ⟨h.leads.trans h'.leads, h.stays.trans h'.stays, h.notes.trans h'.notes⟩

/-- On the way the name has its first use as a static, in the innermost scope. The slots have kept the
tables of that moment: in `m` the name has no static slot, and in the next ones it has one. -/
def ComesToUse (v : Version) (x : Symbol) (d e : Draft) : Prop :=
  ∃ m m', d.Continues v m ∧ m.FirstUses x m' ∧ m'.Continues v e ∧ d.slots.history <:+ m.slots.history ∧
    (m'.slots.tables :: m.slots.history) <:+ e.slots.history

theorem FirstUses.comesToUse {m m' : Draft} (h : m.FirstUses x m') (hm : d.Continues v m)
    (hm' : m'.Continues v e) : d.ComesToUse v x e := by
  have hlast := (Leads.edits hm'.leads).history_suffix
  have hnext : m'.slots.history = m'.slots.tables :: m.slots.history := by
    rw [h.slots]
    rfl
  exact ⟨m, m', hm, h, hm', (Leads.edits hm.leads).history_suffix, hnext ▸ hlast⟩

theorem ComesToUse.later (h : d.ComesToUse v x e) (h' : e.Continues v f) : d.ComesToUse v x f := by
  obtain ⟨m, m', hm, hfirst, hm', -⟩ := h
  exact hfirst.comesToUse hm (hm'.trans h')

theorem ComesToUse.earlier (h : d.Continues v e) (h' : e.ComesToUse v x f) : d.ComesToUse v x f := by
  obtain ⟨m, m', hm, hfirst, hm', -⟩ := h'
  exact hfirst.comesToUse (h.trans hm) hm'

theorem ComesToUse.noted (h : d.ComesToUse v x e) : x ∈ e.top.statics := by
  obtain ⟨m, m', -, hfirst, hm', -⟩ := h
  obtain ⟨c, rest, -, hbare⟩ := hfirst.scopes
  refine hm'.notes.statics x ?_
  rw [top_of_bare hbare]
  exact Scope.mem_note.2 (.inr rfl)

theorem FirstUses.staticIndex?_ne_none (h : d.FirstUses x e) : e.slots.staticIndex? x ≠ none := by
  rw [h.slots, Slots.addStatic_staticIndex? h.vacant]
  exact Option.some_ne_none _

end Draft

namespace Course

variable {s t : Session}

theorem continues (h : Course v ds s t) : s.frame.Continues v t.frame :=
  ⟨Leads.mono h.leads fun _ => trivial, h.stays, h.notes⟩

theorem noted (h : Course v ds s t) (hx : x ∈ t.frame.top.statics) :
    x ∈ s.frame.top.statics ∨ .defines x.name ∈ ds ∨ s.frame.ComesToUse v x t.frame := by
  refine (h.fold (P := fun ds d e => d.Continues v e ∧ (x ∈ e.top.statics →
      x ∈ d.top.statics ∨ .defines x.name ∈ ds ∨ d.ComesToUse v x e))
    (fun d => ⟨.refl d, .inl⟩) (fun h h' => ⟨h.1.trans h'.1, fun hx => ?_⟩) (fun hstep => ?_)
    (fun hin hleave _ => ?_) (fun hin hleave _ => ?_) fun d depth _ _ _ _ => ?_).2 hx
  · rcases h'.2 hx with hx | hd | huse
    · rcases h.2 hx with hx | hd | huse
      · exact .inl hx
      · exact .inr (.inl (mem_append_left _ hd))
      · exact .inr (.inr (huse.later h'.1))
    · exact .inr (.inl (mem_append_right _ hd))
    · exact .inr (.inr (.earlier h.1 huse))
  · obtain ⟨es, fs, rfl, hchange, -⟩ := hstep.act
    refine ⟨(of_step hstep).continues, fun hx => (hchange.noted hx).imp_right (.imp ?_ fun hfirst => ?_)⟩
    · exact mem_append_left fs
    · exact hfirst.comesToUse (.refl _) (.refl _)
  · obtain ⟨c, hcloses, -, -⟩ := leaveScope_closes hleave
    exact ⟨((nil _).scope hin hleave).continues, fun hx => .inl (top_congr (hin.closed hcloses) ▸ hx)⟩
  · obtain ⟨c, hcloses, -, -⟩ := leaveModuleScope_closes hleave
    exact ⟨((nil _).module hin hleave).continues, fun hx => .inl (top_congr (hin.closed hcloses) ▸ hx)⟩
  · exact ⟨⟨.single (.subroutine depth _ _ _ _), .of_bare rfl, .refl _⟩, .inl⟩

theorem noted_iff (h : Course v ds s t) (hknows : t.symbols.Knows x) :
    x ∈ t.frame.top.statics ↔
      x ∈ s.frame.top.statics ∨ .defines x.name ∈ ds ∨ s.frame.ComesToUse v x t.frame := by
  refine ⟨h.noted, ?_⟩
  rintro (hx | hd | huse)
  · exact h.notes.statics x hx
  · obtain ⟨y, hy, hknows', hname⟩ := h.noted_of_defines hd
    exact hknows'.eq hknows hname ▸ hy
  · exact huse.noted

end Course

theorem Slots.findOrAddLocal_static? (slots : Slots) (x : Symbol) :
    (slots.findOrAddLocal x).2.static? = slots.static? := by
  unfold findOrAddLocal
  split
  · rfl
  · exact addLocal_static? (some x)

namespace Draft

variable {d e : Draft} {index : Int}

theorem capture_static? (h : capture x d = .ok (index, e)) : e.slots.static? = d.slots.static? := by
  simp only [capture] at h
  split at h <;> cases h
  · rfl
  · exact Slots.findOrAddLocal_static? _ _

theorem useStatic_firstUses_iff (h : useStatic x d = .ok (index, e)) :
    d.FirstUses x e ↔ d.slots.staticIndex? x = none := by
  refine ⟨(·.vacant), fun hnone => ?_⟩
  simp only [useStatic, Slots.findOrAddStatic, hnone, if_true] at h
  split at h <;> cases h
  rename_i c rest hscopes
  obtain ⟨hd, he⟩ := bare_addStatic (x := x) (e := { d with
    slots := (d.slots.addStatic (some x)).2, scopes := c.addStatic x :: rest }) hscopes rfl
  exact ⟨hnone, rfl, _, _, hd, he⟩

/-- A read or an assignment is a first use exactly if the name is not captured and has no slot. -/
theorem resolve_firstUses_iff {use : Access} (huse : use = .read ∨ use = .write)
    (h : resolve x use d = .ok (index, e)) :
    d.FirstUses x e ↔
      d.captures x = false ∧ d.slots.hasLocal x = false ∧ d.slots.staticIndex? x = none := by
  have hsame (he : e.slots.static? = d.slots.static?) : ¬ d.FirstUses x e := fun hfirst =>
    hfirst.staticIndex?_ne_none ((Slots.index?_congr (k := .static) fun i => by
      rw [show e.slots.holds .static = d.slots.holds .static from he]).trans hfirst.vacant)
  have h : (if d.captures x then capture x d
      else if d.slots.hasLocal x then useLocal x d else useStatic x d) = .ok (index, e) := by
    rcases huse with rfl | rfl <;> exact h
  split at h
  · simp [hsame (capture_static? h), *]
  split at h
  · obtain ⟨-, hslots, -⟩ := useLocal_slots h
    simp [hsame (hslots ▸ Slots.findOrAddLocal_static? _ _), *]
  · simp [useStatic_firstUses_iff h, *]

end Draft

theorem Emit.access_firstUses_iff {reach : Reach} {use : Access} {line : UInt32} {s t : Session}
    (huse : use = .read ∨ use = .write) (h : access v reach x use line s = .ok ((), t)) :
    s.frame.FirstUses x t.frame ↔ s.frame.captures x = false ∧ s.frame.slots.hasLocal x = false ∧
      s.frame.slots.staticIndex? x = none := by
  obtain ⟨index, r, h1, h⟩ := bind_ok.1 h
  obtain ⟨names, r', h2, h3⟩ := bind_ok.1 h
  obtain ⟨f, r'', hf, hn⟩ := bind_ok.1 h2
  obtain ⟨rfl, rfl⟩ := frame_ok.1 hf
  obtain ⟨rfl, rfl⟩ := pure_ok.1 hn
  obtain ⟨d, hd, rfl⟩ := onFrame_ok.1 h1
  obtain ⟨depth, rfl⟩ := emit_ok h3
  rw [← resolve_firstUses_iff huse hd]
  exact ⟨fun h => ⟨h.vacant, h.slots, h.scopes⟩, fun h => ⟨h.vacant, h.slots, h.scopes⟩⟩

theorem Draft.hasStatic_top {d : Draft} {c : Scope} {rest : List Scope} (h : d.scopes = c :: rest) :
    c.hasStatic x = true ↔ x ∈ d.top.statics := by
  rw [top_of_bare (show d.bare = c.bare :: rest.map Scope.bare by rw [bare, h, map_cons]),
    Scope.hasStatic, contains_iff_mem]
  rfl

namespace Emit

variable {α β : Type} {y : Emit α} {f : α → Emit β} {s t : Session} {loc : Loc} {isMethod : Bool}

theorem bind_of_ok {a : α} (h : y s = .ok (a, t)) : (y >>= f) s = f a t := by
  rw [show (y >>= f) s = (y s).bind fun p => f p.1 p.2 from rfl, h]
  rfl

theorem bind_of_error {failure : Failure} (h : y s = .error failure) :
    (y >>= f) s = .error failure := by
  rw [show (y >>= f) s = (y s).bind fun p => f p.1 p.2 from rfl, h]
  rfl

theorem defineMember_eq {body : NodeCode} {child : Draft} :
    defineMember v loc isMethod x body child s =
      if x ∈ s.frame.top.statics then reject loc (.subroutineDefined x.name) s
      else (do
        addMember x
        let body ← NodeCode.blockBody body
        defineBody v loc.line isMethod x body child) s := by
  unfold defineMember
  cases hscopes : s.frame.scopes with
  | nil =>
    have hempty : s.frame.top.statics = [] := by rw [top, bare, hscopes]; rfl
    have hscope : onFrame Draft.scope s = .error (.defect .noOpenScope) := by
      simp [onFrame, Draft.scope, hscopes]
    have hmember : addMember x s = .error (.defect .noOpenScope) := by
      simp [addMember, onFrame, Draft.addMember, hscopes]
    rw [if_neg (by simp [hempty]), bind_of_error hscope, bind_of_error hmember]
  | cons c rest =>
    have hscope : onFrame Draft.scope s = .ok (c, s) := by simp [onFrame, Draft.scope, hscopes]
    rw [bind_of_ok hscope]
    by_cases hx : x ∈ s.frame.top.statics
    · rw [if_pos hx, require, (hasStatic_top hscopes).2 hx]
      rfl
    · rw [if_neg hx, require, Bool.eq_false_iff.2 fun h => hx ((hasStatic_top hscopes).1 h)]
      rfl

end Emit

/-- A function or method is a duplicate exactly if its scope has noted its name, and then nothing else
of it is lowered. Let the scope have noted no static before the statements `ss`, and let `es` be what is
defined between them and the function, as in the condition of an `if` around it. The name is noted
exactly if it was defined since, the defaults of the parameters included, or has come to use. Reads and
assignments bring it to use if it is neither captured nor a local and has no static slot. -/
theorem subroutine_duplicate_iff {o : Options} {sources : Sources} {depth : Nat} {loc : Loc}
    {routine : Routine} {isMethod : Bool} {name : String} {ss : List Stmt} {es : List Deed}
    {s r q u : Session} {x : Symbol} {child : Draft}
    (hname : routine.id.bind Expr.ident? = some name) (hnew : s.frame.top.statics = [])
    (hbefore : runAll (stmtCodes (o.context sources depth) ss) s = .ok ((), r))
    (hcourse : Course o.version es r q)
    (hhead : routineHead o.version loc (routine.code (o.context sources depth)) isMethod name q =
      .ok ((x, child), u)) :
    subroutine o.version loc (routine.code (o.context sources depth)) isMethod q =
      (if x ∈ u.frame.top.statics then reject loc (.subroutineDefined x.name) u
      else (do
        Emit.addMember x
        let body ← NodeCode.blockBody (routine.body.code (o.context sources depth))
        defineBody o.version loc.line isMethod x body child) u) ∧
    x.name = Symbol.canonical name ∧
    (x ∈ u.frame.top.statics →
      (∃ p ∈ ss.map Part.stmt ++ routine.params.map Part.expr,
        Contributes ⟨sources, s.includeFolder, o.projectFolder⟩ o.version o.logsExceptions True p
          (.defines x.name)) ∨
      .defines x.name ∈ es ∨ s.frame.ComesToUse o.version x u.frame) ∧
    ((∃ p ∈ ss.map Part.stmt ++ routine.params.map Part.expr,
        Contributes ⟨sources, s.includeFolder, o.projectFolder⟩ o.version o.logsExceptions
          (s.includeFolder.isSome = true) p (.defines x.name)) ∨
      .defines x.name ∈ es ∨ s.frame.ComesToUse o.version x u.frame → x ∈ u.frame.top.statics) ∧
    ∀ {reach : Reach} {y : Symbol} {use : Access} {line : UInt32} {w w' : Session},
      use = .read ∨ use = .write → access o.version reach y use line w = .ok ((), w') →
      (w.frame.FirstUses y w'.frame ↔ w.frame.captures y = false ∧ w.frame.slots.hasLocal y = false ∧
        w.frame.slots.staticIndex? y = none) := by
  obtain ⟨id, params, body⟩ := routine
  obtain ⟨ds, hds, hbound⟩ := runAll_lowers (stmtCodes_forall₂ fun s (_ : s ∈ ss) =>
    Stmt.follows o sources depth _ s) (fun _ hf => hf) hbefore
  have hsettled := (hds.widens.trans hcourse.widens).settled (fun _ hf => hf)
  obtain ⟨hx, hknows, -, fs, hfs, hbound'⟩ :=
    head_course (parameters_follows o sources depth s.includeFolder params) hsettled hhead
  have hnoted := ((hds.trans hcourse).trans hfs).noted_iff hknows
  dsimp only at hbound
  rw [Use.map_part_stmts] at hbound
  simp only [hnew, not_mem_nil, false_or, mem_append] at hnoted
  refine ⟨?_, hx, fun hstatic => ?_, fun hwas => hnoted.2 ?_, fun huse => access_firstUses_iff huse⟩
  · rw [subroutine_head hname, bind_of_ok hhead]
    exact defineMember_eq
  · rcases hnoted.1 hstatic with ((hd | hd) | hd) | huse
    · obtain ⟨p, hp, hdoes⟩ := hbound.may _ hd
      exact .inl ⟨p, mem_append_left _ hp, hdoes⟩
    · exact .inr (.inl hd)
    · obtain ⟨p, hp, hdoes⟩ := hbound'.may _ hd
      exact .inl ⟨p, mem_append_right _ hp, hdoes⟩
    · exact .inr (.inr huse)
  · rcases hwas with ⟨p, hp, hdoes⟩ | hd | huse
    · refine .inl ((mem_append.1 hp).imp (fun hp => .inl ?_) fun hp => ?_)
      · exact hbound.must _ ⟨p, hp, hdoes, rfl⟩
      · exact hbound'.must _ ⟨p, hp, hdoes, rfl⟩
    · exact .inl (.inl (.inr hd))
    · exact .inr huse

theorem Contributes.of_defines {lib : Library} {logs : Bool} {via : Prop} {p : Part} {name : String}
    (h : Contributes lib v logs via p (.defines name)) : (∃ n ∈ p.members, Symbol.canonical n = name) ∨
      (∃ q ∈ p.parts v, Contributes lib v logs via q (.defines name)) ∨
      ∃ loc path, p = .stmt (.includeFile loc path) := by
  generalize hd : Deed.defines name = d at h
  cases h with
  | takes | encloses => cases hd
  | member hmem =>
    cases hd
    exact .inl ⟨_, hmem, rfl⟩
  | part _ _ hq h => exact .inr (.inl ⟨_, hq, hd ▸ h⟩)
  | @closed _ _ d => cases d <;> cases hd
  | included => exact .inr (.inr ⟨_, _, rfl⟩)

/-- `f();` -/
def earlyCall : Stmt := .expression {} (.call {} (.ident {} "f") [])

/-- `function f() {}` -/
def earlyCall.callee : Routine := ⟨some (.ident {} "f"), [], .stmt (.block {} [])⟩

/-- The statics that are noted before the call and before the function, and the function's symbol. -/
def earlyCall.observed : Emit (List Symbol × Symbol × List Symbol) := do
  pushScope .block
  let s ← get
  runAll (stmtCodes (Options.context {} noSources 0) [earlyCall])
  let (x, _) ← routineHead .latestCommon {} (earlyCall.callee.code (Options.context {} noSources 0)) false "f"
  let u ← get
  pure (s.frame.top.statics, x, u.frame.top.statics)

theorem earlyCall.not_defines {lib : Library} {logs : Bool} {via : Prop} {name : String} :
    ¬ Contributes lib v logs via (.stmt earlyCall) (.defines name) := by
  -- The statement, the call and its callee define nothing, and the callee has no parts.
  intro h
  obtain ⟨_, hmem, -⟩ | ⟨q, hq, h⟩ | ⟨_, _, hinclude⟩ := h.of_defines
  · cases hmem
  · obtain rfl := mem_singleton.1 hq
    obtain ⟨_, hmem, -⟩ | ⟨q, hq, h⟩ | ⟨_, _, hinclude⟩ := h.of_defines
    · cases hmem
    · obtain rfl := mem_singleton.1 hq
      obtain ⟨_, hmem, -⟩ | ⟨q, hq, h⟩ | ⟨_, _, hinclude⟩ := h.of_defines
      · cases hmem
      · cases hq
      · cases hinclude
    · cases hinclude
  · cases hinclude

/-- Nothing defines `f` before the function, but the call has brought the name to use. -/
theorem earlyCall_makes_duplicate : ∃ s r u x child,
    Emit.pushScope .block (Session.start {} "main") = .ok ((), s) ∧
    runAll (stmtCodes (Options.context {} noSources 0) [earlyCall]) s = .ok ((), r) ∧
    routineHead .latestCommon {} (earlyCall.callee.code (Options.context {} noSources 0)) false "f" r =
      .ok ((x, child), u) ∧
    ¬ Contributes ⟨noSources, s.includeFolder, none⟩ .latestCommon false True (.stmt earlyCall)
      (.defines x.name) ∧
    s.frame.ComesToUse .latestCommon x u.frame ∧
    Emit.subroutine .latestCommon {} (earlyCall.callee.code (Options.context {} noSources 0)) false r =
      Emit.reject {} (.subroutineDefined x.name) u := by
  have heval : (earlyCall.observed (Session.start {} "main")).toOption.map Prod.fst =
      some ([], ⟨1, "f", false⟩, [⟨1, "f", false⟩]) := by cbv
  cases hrun : earlyCall.observed (Session.start {} "main") with
  | error => simp [hrun, Except.toOption] at heval
  | ok p =>
    simp only [hrun, Except.toOption, Option.map_some, Option.some.injEq] at heval
    obtain ⟨⟨⟩, s, h1, hr1⟩ := Emit.bind_ok.1 hrun
    obtain ⟨s', s'', h2, hr2⟩ := Emit.bind_ok.1 hr1
    obtain ⟨hs', hs''⟩ := Emit.get_ok.1 h2
    rw [hs', hs''] at hr2
    obtain ⟨⟨⟩, r, h3, hr3⟩ := Emit.bind_ok.1 hr2
    obtain ⟨⟨x, child⟩, u, h4, hr4⟩ := Emit.bind_ok.1 hr3
    obtain ⟨u', r2, h5, hr5⟩ := Emit.bind_ok.1 hr4
    rw [(Emit.pure_ok.1 hr5).1, (Emit.get_ok.1 h5).1] at heval
    simp only [Prod.mk.injEq] at heval
    obtain ⟨hnew, rfl, hstatics⟩ := heval
    obtain ⟨hsubroutine, -, hwas, -, -⟩ := subroutine_duplicate_iff (o := {}) rfl hnew h3 (.nil r) h4
    have hnoted : ⟨1, "f", false⟩ ∈ u.frame.top.statics := hstatics ▸ List.mem_singleton.2 rfl
    refine ⟨s, r, u, _, child, h1, h3, h4, earlyCall.not_defines, ?_, ?_⟩
    · rcases hwas hnoted with ⟨p, hp, hdoes⟩ | hd | huse
      · obtain rfl := List.mem_singleton.1 hp
        exact absurd hdoes earlyCall.not_defines
      · cases hd
      · exact huse
    · exact hsubroutine.trans (if_pos hnoted)

end Adhoc
