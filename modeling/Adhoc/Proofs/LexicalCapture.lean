import Adhoc.Proofs.Captures

namespace Adhoc

open Emit List Slots

variable {x : Symbol} {line : UInt32} {v : Version} {known : Symbol → Prop} {ds : List Deed}
  {reach : Reach} {index : Int}

/-- The name is a variable of the frame around, and the frame itself has it only as a captured one. -/
structure Draft.Outer (d : Draft) (x : Symbol) : Prop where
  inView : ∃ outer, d.enclosing = some outer ∧ x ∈ outer
  notParameter : x ∉ d.parameters
  live_iff : x ∈ d.slots.locals ↔ x ∈ d.captured
  accesses : ∀ (p : Nat) line reach names index,
    d.code[p]? = some ⟨line, .variable reach names index⟩ → names.getLast? = some x →
      ∃ k, index = Int.negSucc k ∧ d.captured[k]? = some x

namespace Slots

variable {slots slots' : Slots} {y : Symbol}

theorem mem_locals_congr (h : slots'.local? = slots.local?) : x ∈ slots'.locals ↔ x ∈ slots.locals := by
  rw [mem_locals, mem_locals, h]

theorem mem_locals_addLocal : x ∈ (slots.addLocal (some y)).2.locals ↔ x ∈ slots.locals ∨ x = y := by
  simp only [mem_locals, addLocal_local?]
  constructor
  · rintro ⟨j, hj⟩
    split at hj
    · exact .inr (Option.some.inj hj).symm
    · exact .inl ⟨j, hj⟩
  · rintro (⟨j, hj⟩ | rfl)
    · refine ⟨j, ?_⟩
      rw [if_neg, hj]
      rintro rfl
      rw [addLocal_empty] at hj
      cases hj
    · exact ⟨_, if_pos rfl⟩

theorem mem_locals_freed {xs : List Symbol} (h : x ∉ xs) :
    x ∈ (xs.foldl freeLocal slots).locals ↔ x ∈ slots.locals := by
  rw [mem_locals, mem_locals]
  exact ⟨fun ⟨j, hj⟩ => ⟨j, foldl_freeLocal_sub hj⟩, fun ⟨j, hj⟩ => ⟨j, foldl_freeLocal_kept h hj⟩⟩

end Slots

namespace Draft

variable {d e : Draft} {es : List Deed}

theorem Outer.captures (h : d.Outer x) : d.captures x = true := by
  obtain ⟨outer, henclosing, hmem⟩ := h.inView
  by_cases hx : x ∈ d.captured
  · simp [Draft.captures, henclosing, hmem, hx]
  · have hlocal : d.slots.hasLocal x = false := by
      rw [Bool.eq_false_iff, ne_eq, hasLocal_iff, ← mem_locals, h.live_iff]
      exact hx
    simp [Draft.captures, henclosing, hmem, hlocal, h.notParameter]

theorem Change.live_iff (h : d.Change known e ds) (hown : .owns x.name ∉ ds)
    (hx : x ∈ d.slots.locals ↔ x ∈ d.captured) : x ∈ e.slots.locals ↔ x ∈ e.captured := by
  cases h with
  | none hs _ hc => rwa [hs, hc]
  | @addLocal y _ _ _ _ hs _ _ hc =>
    have hne : x ≠ y := by
      rintro rfl
      exact hown (mem_singleton.2 rfl)
    rw [hs, hc, mem_locals_addLocal, or_iff_left hne, hx]
  | addStatic _ _ hs _ _ hc | addMember _ hs _ _ hc =>
    rw [hs, hc, mem_locals_congr (addStatic_local? _), hx]
  | addStatics hs _ hc =>
    rw [hs, hc, mem_locals_congr (foldl_view (fun _ c => addStatic_local? c) _), hx]
  | capture _ _ _ hs _ hc => simp [hs, hc, mem_locals_addLocal, hx]

theorem Outer.grow (h : d.Outer x) (hremains : d.Remains e) (hcode : GoesOn d.code e.code)
    (hcaptured : d.captured <+: e.captured) (hlive : x ∈ e.slots.locals ↔ x ∈ e.captured)
    (hnew : ∀ (p : Nat) line reach names index, d.code.size ≤ p →
      e.code[p]? = some ⟨line, .variable reach names index⟩ → names.getLast? = some x →
      ∃ k, index = Int.negSucc k ∧ e.captured[k]? = some x) : e.Outer x where
  inView := hremains.enclosing ▸ h.inView
  notParameter := hremains.parameters ▸ h.notParameter
  live_iff := hlive
  accesses p line reach names index hget hlast := by
    by_cases hp : p < d.code.size
    · obtain ⟨k, rfl, hk⟩ :=
        h.accesses p line reach names index ((hcode.same p _ hp rfl).1 hget) hlast
      exact ⟨k, rfl, getElem?_of_prefix hcaptured hk⟩
    · exact hnew p line reach names index (not_lt.1 hp) hget hlast

theorem Outer.same (h : d.Outer x) (hremains : d.Remains e) (hcode : e.code = d.code)
    (hcaptured : e.captured = d.captured) (hlive : x ∈ e.slots.locals ↔ x ∈ d.slots.locals) :
    e.Outer x := by
  refine h.grow hremains (hcode ▸ .refl _) (hcaptured ▸ prefix_rfl)
    (by rw [hlive, hcaptured, h.live_iff]) fun p line reach names index hp hget _ => ?_
  rw [hcode, Array.getElem?_eq_none hp] at hget
  cases hget

/-- An instruction that names no variable may be added. -/
theorem Outer.push {op : Operation} (h : d.Outer x) (hremains : d.Remains e)
    (hcode : e.code = d.code.push ⟨line, op⟩)
    (hop : ∀ reach names index, op ≠ .variable reach names index)
    (hcaptured : e.captured = d.captured) (hlive : x ∈ e.slots.locals ↔ x ∈ d.slots.locals) :
    e.Outer x := by
  refine h.grow hremains (hcode ▸ .push _ _) (hcaptured ▸ prefix_rfl)
    (by rw [hlive, hcaptured, h.live_iff]) fun p line reach names index hp hget _ => ?_
  exact absurd (Instruction.mk.inj (eq_of_pushed hcode hp hget)).2.symm (hop reach names index)

theorem Writes.captured_of_outer {p : Nat} {names : List Symbol} (h : d.Writes e es)
    (hd : d.Outer x) (hown : .owns x.name ∉ es) (hp : d.code.size ≤ p)
    (hget : e.code[p]? = some ⟨line, .variable reach names index⟩)
    (hlast : names.getLast? = some x) : ∃ k, index = Int.negSucc k ∧ e.captured[k]? = some x := by
  have hcaptures := hd.captures
  have hpushed : ∀ {i}, e.code = d.code.push i → ⟨line, .variable reach names index⟩ = i :=
    fun hcode => eq_of_pushed hcode hp hget
  cases h with
  | none h =>
    rw [h, Array.getElem?_eq_none hp] at hget
    cases hget
  | patch h he =>
    rw [he, Array.getElem?_eq_none ((patch_goesOn h).2 ▸ hp)] at hget
    cases hget
  | plain hplain h =>
    cases hpushed h
    cases hplain
  | captured _ hk hlast' h =>
    cases hpushed h
    cases hlast.symm.trans hlast'
    exact ⟨_, rfl, hk⟩
  | «local» hc _ h =>
    cases hpushed h
    rw [getLast?_singleton, Option.some.injEq] at hlast
    subst hlast
    rw [hcaptures] at hc
    cases hc
  | static hc _ hlast' h =>
    cases hpushed h
    cases hlast.symm.trans hlast'
    rw [hcaptures] at hc
    cases hc
  | own _ h | self _ h =>
    cases hpushed h
    rw [getLast?_singleton, Option.some.injEq] at hlast
    subst hlast
    exact absurd (mem_singleton.2 rfl) hown

end Draft

namespace Course

variable {s t : Session}

theorem noted_owned (h : Course v ds s t) (hx : x ∈ t.frame.top.locals) :
    x ∈ s.frame.top.locals ∨ .owns x.name ∈ ds := by
  refine h.foldClosed (P := fun ds d e => x ∈ e.top.locals → x ∈ d.top.locals ∨ .owns x.name ∈ ds)
    (fun _ => .inl) (fun h h' hx => ?_) (fun hstep hx => ?_)
    (fun hin _ hcloses hx => .inl (Draft.top_congr (hin.closed hcloses) ▸ hx))
    (fun _ _ _ _ _ _ => .inl) hx
  · rcases h' hx with hx | hx
    · exact (h hx).imp_right (mem_append_left _)
    · exact .inr (mem_append_right _ hx)
  · obtain ⟨es, fs, rfl, hchange, -⟩ := hstep.act
    exact (hchange.noted_local hx).imp_right fun h => mem_append_left _ h.2

theorem outer (h : Course v ds s t) (hs : s.frame.Outer x) (hown : .owns x.name ∉ ds) :
    t.frame.Outer x := by
  refine h.fold (P := fun ds d e => d.Outer x → .owns x.name ∉ ds → e.Outer x) (fun _ hs _ => hs)
    (fun h h' hs hown => ?_) (fun hstep hs hown => ?_) (fun {es r u t kind _} hin hleave ih hs hown => ?_)
    (fun {es r u t} hin hleave ih hs hown => ?_)
    (fun _ _ _ _ _ _ hs _ => hs.push ⟨rfl, rfl, rfl, rfl⟩ rfl (by simp) rfl Iff.rfl) hs hown
  · rw [mem_append, not_or] at hown
    exact h' (h hs hown.1) hown.2
  · obtain ⟨es, fs, rfl, hchange, hwrites⟩ := hstep.act
    rw [mem_append, not_or] at hown
    exact hs.grow hstep.remains hwrites.goesOn.1 hchange.captured_prefix
      (hchange.live_iff hown.1 hs.live_iff)
      fun _ _ _ _ _ hp hget hlast => hwrites.captured_of_outer hs hown.2 hp hget hlast
  · have hown' : .owns x.name ∉ es := fun h => hown (mem_filter.2 ⟨h, rfl⟩)
    have hu := ih (hs.same (e := (r.open kind).frame) ⟨rfl, rfl, rfl, rfl⟩ rfl rfl Iff.rfl) hown'
    obtain ⟨c, hcloses, hcode, -⟩ := leaveScope_closes hleave
    have hnot : x ∉ c.locals := fun hx =>
      (hin.noted_owned (hcloses.top ▸ hx)).elim (fun h => nomatch h) hown'
    have hlive : x ∈ t.frame.slots.locals ↔ x ∈ u.frame.slots.locals := by
      rw [hcloses.slots, Draft.left]
      split
      · exact mem_locals_freed hnot
      · rfl
    split at hcode
    · exact hu.push hcloses.remains hcode (by simp) hcloses.captured hlive
    · exact hu.same hcloses.remains hcode hcloses.captured hlive
  · have hown' : .owns x.name ∉ es := fun h =>
      hown (mem_cons_of_mem _ (mem_map.2 ⟨_, h, rfl⟩))
    have hu := ih (hs.same (e := (r.open .module).frame) ⟨rfl, rfl, rfl, rfl⟩ rfl rfl Iff.rfl) hown'
    obtain ⟨c, hcloses, ⟨n, hcode⟩, -⟩ := leaveModuleScope_closes hleave
    have hlive : x ∈ t.frame.slots.locals ↔ x ∈ u.frame.slots.locals := by
      rw [hcloses.slots, Draft.left]
      split
      · exact mem_locals_congr (foldl_view (fun _ _ => freeStatic_local?) _)
      · rfl
    split at hcode
    · exact hu.push hcloses.remains hcode (by simp) hcloses.captured hlive
    · exact hu.same hcloses.remains hcode hcloses.captured hlive

end Course

section

variable {d e : Draft} {s t : Session} {use : Access}

theorem Draft.Outer.resolve (h : d.Outer x) (huse : use = .read ∨ use = .write)
    (hr : Draft.resolve x use d = .ok (index, e)) :
    (∃ k, index = Int.negSucc k ∧ e.captured[k]? = some x) ∧ e.slots.hasLocal x = true ∧
      e.code = d.code := by
  have hcapture : capture x d = .ok (index, e) := by
    rcases huse with rfl | rfl <;> simpa only [Draft.resolve, h.captures, if_true] using hr
  obtain ⟨hresolves, ⟨k, rfl, hk⟩, hchange⟩ :=
    @capture_ok x (fun _ => True) d e index trivial h.captures hcapture
  have hlive := (hchange.live_iff not_mem_nil h.live_iff).2 (mem_of_getElem? hk)
  exact ⟨⟨k, rfl, hk⟩, hasLocal_iff.2 (mem_locals.1 hlive), hresolves.code⟩

theorem Emit.access_outer (hs : s.frame.Outer x) (huse : use = .read ∨ use = .write)
    (h : access v reach x use line s = .ok ((), t)) :
    ∃ k, t.frame.code = s.frame.code.push ⟨line, .variable reach [x] (Int.negSucc k)⟩ ∧
      t.frame.captured[k]? = some x ∧ t.frame.slots.hasLocal x = true := by
  simp only [access, accessNames, bind_ok] at h
  obtain ⟨index, r, hr, names, r1, ⟨f, r2, hf, hnames⟩, hemit⟩ := h
  obtain ⟨d, hd, rfl⟩ := onFrame_ok.1 hr
  obtain ⟨⟨k, rfl, hk⟩, hlive, hcode⟩ := hs.resolve huse hd
  obtain ⟨rfl, rfl⟩ := frame_ok.1 hf
  obtain ⟨rfl, rfl⟩ := pure_ok.1 hnames
  obtain ⟨depth, rfl⟩ := emit_ok hemit
  refine ⟨k, ?_, hk, hlive⟩
  simp [Draft.isStatic, hlive, hcode, Session.at]

end

theorem Draft.Prepared.outer {symbols : SymbolTable} {outer : List Symbol} {d : Draft}
    (h : d.Prepared v symbols (some outer)) (hx : x ∈ outer) (hparam : x ∉ d.parameters) :
    d.Outer x where
  inView := ⟨outer, h.enclosing, hx⟩
  notParameter := hparam
  live_iff := by
    rw [h.captured, mem_locals]
    exact ⟨fun ⟨j, hj⟩ => absurd (h.locals j x hj) hparam, fun h => nomatch h⟩
  accesses p line reach names index hget := by simp [h.code] at hget

/-- A closure accesses a name that it does not take for its own as a captured variable exactly if the
name is a live local of the frame directly around when the closure is begun. An identifier is then
accessed with its name alone, and is a live local for the closures inside from there on. -/
theorem closure_captures_iff {o : Options} {sources : Sources} {depth : Nat} {params : List Expr}
    {body : Node} {loc : Loc} {isMethod : Bool} {s t : Session} (x : Symbol)
    (h : closure o.version loc (exprCodes (o.context sources depth) params)
      (body.code (o.context sources depth)) isMethod s = .ok ((), t)) :
    (∃ sub, t.frame.code.back? = some ⟨loc.line, .subroutine none sub isMethod⟩ ∧
      (x ∉ sub.header.parameters →
        ¬Contributes ⟨sources, s.includeFolder, o.projectFolder⟩ o.version o.logsExceptions True body.part
          (.owns x.name) →
        ∀ line reach names index, ⟨line, .variable reach names index⟩ ∈ sub.code →
          names.getLast? = some x →
          ((∃ k, index = Int.negSucc k ∧ sub.header.captured[k]? = some x) ↔
            s.frame.slots.hasLocal x = true))) ∧
    ∀ (child : Draft) (u r r' : Session) (ds : List Deed) (name : String) (loc' : Loc),
      child.Prepared o.version u.symbols (some s.frame.slots.locals) → x ∉ child.parameters →
      Course o.version ds (u.at child) r → .owns x.name ∉ ds → r.symbols.Knows x →
      x.name = Symbol.canonical name → s.frame.slots.hasLocal x = true →
      (readName o.version name loc' r = .ok ((), r') ∨
        pushName o.version name loc' false r = .ok ((), r')) →
      ∃ reach k,
        r'.frame.code = r.frame.code.push ⟨loc'.line, .variable reach [x] (Int.negSucc k)⟩ ∧
        r'.frame.captured[k]? = some x ∧ r'.frame.slots.hasLocal x = true := by
  have hview : s.frame.slots.hasLocal x = true ↔ x ∈ s.frame.slots.locals := by
    rw [Slots.hasLocal_iff, Slots.mem_locals]
  refine ⟨?_, fun child u r r' ds name loc' hchild hparam hcourse hown hknown hname hlive haccess => ?_⟩
  · have hparams := parameters_follows o sources depth s.includeFolder params
    obtain ⟨ds, fs, u, w, y, z, child, -, -, hchild, hbody, hfs, hleave, -, -, hemit⟩ :=
      closure_steps hparams (closureBody_follows o sources depth s.includeFolder body) (fun _ hf => hf) h
    obtain ⟨c, hcloses, hcode, -⟩ := leaveScope_closes hleave
    obtain ⟨depth', rfl⟩ := emit_ok hemit
    have hremains := hbody.remains.trans hcloses.remains
    refine ⟨y.frame.finish, by simp [Session.at], fun hparam hdoes line reach names index hmem hlast => ?_⟩
    constructor
    · rintro ⟨k, -, hk⟩
      have hsound := leaveScope_capturesSoundly hleave
        (hbody.capturesSoundly (.of_empty hchild.code hchild.moments hchild.captured))
      obtain ⟨outer, hout, hx⟩ := hsound.inView x (List.mem_of_getElem? hk)
      cases (hremains.enclosing.trans hchild.enclosing).symm.trans hout
      exact hview.2 hx
    · intro hlive
      have hchild' := hchild.outer (hview.1 hlive) (hremains.parameters ▸ hparam)
      have hw := hbody.outer hchild' fun hown => hdoes (hfs.may _ hown)
      obtain ⟨p, hp⟩ := List.mem_iff_getElem?.1 hmem
      rw [Bool.false_and, if_neg Bool.false_ne_true] at hcode
      have hget : w.frame.code[p]? = some ⟨line, .variable reach names index⟩ := by
        rw [← hcode]
        simpa [Draft.finish] using hp
      obtain ⟨k, rfl, hk⟩ := hw.accesses p line reach names index hget hlast
      exact ⟨k, rfl, hcloses.captured.symm ▸ hk⟩
  · have hr : r.frame.Outer x := hcourse.outer (hchild.outer (hview.1 hlive) hparam) hown
    rcases haccess with haccess | haccess
    all_goals
      obtain ⟨y, r1, hy, haccess⟩ := bind_ok.1 haccess
      obtain ⟨hy', hyname, hwidens, hframe⟩ := symbol_ok hy
      obtain rfl := hy'.eq (hknown.mono hwidens.symbols) (hyname.trans hname.symm)
      rw [← hframe] at hr ⊢
      obtain ⟨k, haccessed⟩ := access_outer hr (by simp) haccess
      exact ⟨_, k, haccessed⟩

/-- The names and indices of the variables that the code of a frame accesses. -/
def Frame.accesses (f : Frame) : List (List String × Int) :=
  f.code.filterMap fun ins => match ins.operation with
    | .variable _ names index => some (names.map Symbol.name, index)
    | _ => none

/-- The frame of the closure that was emitted last. -/
def Draft.lastClosure? (d : Draft) : Option Frame :=
  d.code.back?.bind fun ins => match ins.operation with
    | .subroutine none sub _ => some sub
    | _ => none

/-- What is seen of `() => x` where `x` is a local. -/
def arrowOverLocal.observed : Emit (Option (Nat × Bool × List (List String × Int))) := do
  pushScope .block
  declareName "x"
  let s ← get
  closure .latestCommon {} (exprCodes (Options.context {} noSources 0) [])
    ((Node.expr (.ident {} "x")).code (Options.context {} noSources 0)) false
  let t ← get
  pure (t.frame.lastClosure?.map fun sub =>
    (sub.header.parameters.length, s.frame.slots.hasLocal ⟨1, "x", false⟩, sub.accesses))

theorem arrowOverLocal_captures : ∃ s t sub, (do
      pushScope .block
      declareName "x") (Session.start {} "main") = .ok ((), s) ∧
    closure .latestCommon {} (exprCodes (Options.context {} noSources 0) [])
      ((Node.expr (.ident {} "x")).code (Options.context {} noSources 0)) false s = .ok ((), t) ∧
    t.frame.lastClosure? = some sub ∧ sub.accesses = [(["x"], -1)] ∧
    ∀ line reach names index, ⟨line, .variable reach names index⟩ ∈ sub.code →
      names.getLast? = some ⟨1, "x", false⟩ →
      ∃ k, index = Int.negSucc k ∧ sub.header.captured[k]? = some ⟨1, "x", false⟩ := by
  have heval : (arrowOverLocal.observed (Session.start {} "main")).toOption.bind Prod.fst =
      some (0, true, [(["x"], -1)]) := by decide +kernel
  have hdoes (lib : Library) (via : Prop) (d : Deed) :
      ¬Contributes lib .latestCommon false via (.expr (.ident {} "x")) d := by
    intro h
    cases h with
    | takes h =>
      cases h with
      | declared h | temporary h => cases h
    | member h | part _ _ h | encloses h | closed h => cases h
  cases hrun : arrowOverLocal.observed (Session.start {} "main") with
  | error => simp [hrun, Except.toOption] at heval
  | ok r =>
    simp only [hrun, Except.toOption, Option.bind_some] at heval
    obtain ⟨⟨⟩, r1, h1, hr1⟩ := bind_ok.1 hrun
    obtain ⟨⟨⟩, s, h2, hr2⟩ := bind_ok.1 hr1
    obtain ⟨s', r2, h3, hr3⟩ := bind_ok.1 hr2
    obtain ⟨rfl, rfl⟩ := get_ok.1 h3
    obtain ⟨⟨⟩, t, h4, hr4⟩ := bind_ok.1 hr3
    obtain ⟨t', r3, h5, hr5⟩ := bind_ok.1 hr4
    obtain ⟨rfl, rfl⟩ := get_ok.1 h5
    rw [(pure_ok.1 hr5).1] at heval
    obtain ⟨sub, hback, hcaptures⟩ := (closure_captures_iff (o := {}) ⟨1, "x", false⟩ h4).1
    simp only [Draft.lastClosure?, hback, Option.bind_some, Option.map_some, Prod.mk.injEq,
      Option.some.injEq] at heval
    obtain ⟨hparams, hlive, haccesses⟩ := heval
    refine ⟨_, _, sub, bind_ok.2 ⟨_, _, h1, h2⟩, h4, by simp [Draft.lastClosure?, hback], haccesses,
      fun line reach names index hmem hlast => ?_⟩
    exact (hcaptures (by simp [List.length_eq_zero_iff.1 hparams]) (hdoes _ _ _)
      line reach names index hmem hlast).2 hlive

/-- `var x = 1; var f = function () { return function () { return x; }; };` -/
def passedOver : Program where
  body := [
    .declare {} [⟨{}, some (.ident {} "x"), some (.literal {} (.int 1))⟩],
    .declare {} [⟨{}, some (.ident {} "f"), some (.function {} ⟨none, [], .stmt (.block {} [
      .returnValue {} (some (.function {} ⟨none, [], .stmt (.block {} [
        .returnValue {} (some (.ident {} "x"))])⟩))])⟩)⟩]]

/-- The closure between does not access `x`, so that the inner one takes it for a static. -/
theorem passedOver_static : (passedOver.compile {} noSources 0 "main").toOption.map
    (fun script => script.frame.preorder.map Frame.accesses) =
      some [[(["x"], 1), (["f"], 2)], [], [(["x", "x"], 0)]] := by
  decide +kernel

end Adhoc
