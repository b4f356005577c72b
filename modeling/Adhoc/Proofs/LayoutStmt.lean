import Adhoc.Proofs.Control
import Adhoc.Proofs.LayoutExpr

namespace Adhoc

open Emit List Draft

variable {label : Option String} {t : Nat × Nat} {targets : List (Nat × Nat)}

section

variable {before after : List Scope} {c : Scope} {rest : List (Nat × Nat)}

/-- What is looked for in the scopes from the innermost on is where the first such scope leads. -/
theorem target_surroundings {T : List Enclosing → Option Nat} {q : Scope → Bool} {g : Nat × Nat → Nat}
    (hyes : ∀ c kinds t ts, q c = true → T (surroundings (c.kind :: kinds) (t :: ts)) = some (g t))
    (hno : ∀ c kinds t ts, q c = false →
      T (surroundings (c.kind :: kinds) (t :: ts)) = T (surroundings kinds ts))
    (hb : ∀ b ∈ before, q b = false) (hc : q c = true) (hlength : targets.length = before.length) :
    T (surroundings ((before ++ c :: after).map (·.kind)) (targets ++ t :: rest)) = some (g t) := by
  induction before generalizing targets with
  | nil =>
    obtain rfl := length_eq_zero_iff.1 hlength
    exact hyes _ _ _ _ hc
  | cons b before ih =>
    obtain ⟨x, targets, rfl⟩ := exists_cons_of_length_eq_add_one hlength
    rw [forall_mem_cons] at hb
    exact (hno _ _ _ _ hb.1).trans (ih hb.2 (by simpa using hlength))

theorem breakTarget_surroundings (hb : ∀ b ∈ before, leftBy label b = false)
    (hc : leftBy label c = true) (hlength : targets.length = before.length) :
    breakTarget? (surroundings ((before ++ c :: after).map (·.kind)) (targets ++ t :: rest)) label =
      some t.1 := by
  refine target_surroundings (T := (breakTarget? · label)) (g := Prod.fst) ?_ ?_ hb hc hlength
  all_goals
    rintro ⟨kind, _⟩ kinds t ts h
    cases label <;> cases kind <;>
      simp_all [leftBy, ScopeKind.takesBreak, ScopeKind.label?, surroundings, breakTarget?]

theorem continueTarget_surroundings (hb : ∀ b ∈ before, continuedBy label b = false)
    (hc : continuedBy label c = true) (hlength : targets.length = before.length) :
    continueTarget? (surroundings ((before ++ c :: after).map (·.kind)) (targets ++ t :: rest))
      label = some t.2 := by
  refine target_surroundings (T := (continueTarget? · label)) (g := Prod.snd) ?_ ?_ hb hc hlength
  all_goals
    rintro ⟨kind, _⟩ kinds t ts h
    cases label <;> cases kind <;>
      simp_all [continuedBy, ScopeKind.isLoop, ScopeKind.label?, surroundings, continueTarget?]

end

section

variable {lib : Library} {v : Version} {loc : Loc} {ps : List Part} {cs : List CaseCode}
  {ct : ExprCode} {test e : Expr} {jumps : List (Option Nat)} {ci : Option NodeCode}
  {ks : List SwitchCase} {cl : Option StmtCode} {init : Option Node} {last : Option Stmt}
  {held : List Nat} {ss : List Stmt} {x : Emit Unit} {path l : String} {cx : Context} {left : Node}

theorem breakOut_lays : Lays lib v [.stmt (.breakOut loc label)] (breakOut v loc label) := by
  intro s _ t hs h
  obtain ⟨before, c, after, hscopes, hbefore, hc, hsize, hp⟩ := breakOut_placed hs h
  refine ⟨hp.grows, hp.keeps, hp.folder, fun code targets hlength ha => ?_⟩
  obtain ⟨ts, x, rest, rfl, hts⟩ := targets_split hscopes hlength
  rw [hsize, Session.kinds, hscopes]
  exact .single (.breakOut (breakTarget_surroundings hbefore hc hts)
    (hp.laid code _ hlength ha ts x rest rfl hts))

theorem continueLoop_lays :
    Lays lib v [.stmt (.continueLoop loc label)] (continueLoop v loc label) := by
  intro s _ t hs h
  have hq : ¬ Quiet lib v [.stmt (.continueLoop loc label)] := fun hq =>
    hq _ (mem_singleton_self _) (.here loc label)
  obtain ⟨before, c, after, hscopes, hbefore, hc, hsize, hp⟩ := continueLoop_placed hq hs h
  refine ⟨hp.grows, hp.keeps, hp.folder, fun code targets hlength ha => ?_⟩
  obtain ⟨ts, x, rest, rfl, hts⟩ := targets_split hscopes hlength
  rw [hsize, Session.kinds, hscopes]
  exact .single (.continueLoop (continueTarget_surroundings hbefore hc hts)
    (hp.laid code _ hlength ha ts x rest rfl hts))

variable {stmt body : Stmt} {c cb : StmtCode}

theorem inScope_lays (h : StmtLaid lib v stmt c) : Lays lib v [.stmt stmt] (c.inScope v) := by
  unfold StmtCode.inScope
  split
  all_goals first | exact h.run | exact .scope rfl h.run

theorem ifElse_lays {consequent : Stmt} {alternate : Option Stmt} {cc : StmtCode}
    {ca : Option StmtCode} (ht : ExprLaid lib v test ct) (hc : StmtLaid lib v consequent cc)
    (ha : Option.Rel (StmtLaid lib v) alternate ca) :
    Lays lib v ([.expr test, .stmt consequent] ++ alternate.toList.map .stmt)
      (ifElse v ct cc ca) := by
  intro s _ t hs h
  simp only [ifElse, bind_ok] at h
  obtain ⟨_, r1, h1, _, r2, h2, k, r3, h3, _, r4, h4, h⟩ := h
  have ho := pushScope_opens h1
  have hr1 := ho.ready hs
  have ptest := ht.kept hr1 h2
  have hr2 := ptest.ready hr1
  have hr3 := Placed.ready_jump hr2 h3
  have pcons := inScope_lays hc hr3 h4
  have hr4 := pcons.ready hr3
  cases ha with
  | some ha =>
    simp only [bind_ok] at h
    obtain ⟨k', r5, h5, _, r6, h6, _, r7, h7, _, r8, h8, h9⟩ := h
    have pacross := Tiles.across hr2 h3 (pcons.trans (.jump hr4 h5)) h6
    have palt := pacross.trans (inScope_lays ha (pacross.ready hr2) h7)
    have pend := (palt.patchHere (by simp) h8).settle (by simp)
    exact .scope hs rfl ho (ptest.trans pend) h9
  | none =>
    have hleave : ∀ {r5}, Tiles lib v [] [.stmt consequent] r3 r5 → (do
        patchHere k
        leaveScope v false) r5 = .ok ((), t) → Tiles lib v [] [.expr test, .stmt consequent] s t := by
      intro r5 hr5 h
      obtain ⟨_, r6, h6, h7⟩ := bind_ok.1 h
      exact .scope hs rfl ho (ptest.trans (.across hr2 h3 hr5 h6)) h7
    dsimp only at h
    split at h
    · simp only [bind_ok] at h
      obtain ⟨k', r5, h5, _, r6, h6, _, r7, h7, h8⟩ := h
      have pacross := pcons.trans (Tiles.across hr4 h5 (.still (Placed.ready_jump hr4 h5) (.refl _)) h6)
      exact hleave pacross (bind_ok.2 ⟨_, _, h7, h8⟩)
    · exact hleave pcons h

theorem forInit_lays (h : Option.Rel (NodeLaid lib v) init ci) :
    Lays lib v (init.toList.map Node.part) (forInit ci) := by
  cases h with
  | none => exact .pure ()
  | some h =>
    exact h.forInit (P := fun n => Lays lib v [n.part]) (fun _ _ _ h hd => h.declares _ hd false)
      (fun _ _ h => h.value) fun _ _ _ => .reject

theorem loopTest_tiles {test : Option Expr} {ct : Option ExprCode} {exit : Option Nat} {s t : Session}
    (h : Option.Rel (ExprLaid lib v) test ct) (hs : Ready lib.includeFolder s)
    (hr : loopTest v ct s = .ok (exit, t)) : Tiles lib v exit.toList (test.toList.map .expr) s t := by
  cases h with
  | none =>
    obtain ⟨rfl, rfl⟩ := pure_ok.1 hr
    exact .still hs (.refl _)
  | some h =>
    simp only [loopTest, bind_ok, pure_ok] at hr
    obtain ⟨_, r, h1, k, r', h2, rfl, rfl⟩ := hr
    have pkept := h.kept hs h1
    exact pkept.trans (.jump (pkept.ready hs) h2)

/-- Parts of a larger one, with all that is quiet in it. -/
theorem Tiles.within {p : Part} {s t : Session} (h : Tiles lib v held ps s t)
    (hps : ps ⊆ p.parts v) :
    Placed (Quiet lib v [p]) held (fun code targets => Tiled lib v code (surroundings s.kinds targets)
      ps s.frame.code.size t.frame.code.size) s t :=
  Placed.mono h (·.parts hps) (fun _ => .rfl) fun _ _ hl => hl

theorem surroundings_loop {s r : Session} (h : Opens (.loop label) s r) :
    surroundings r.kinds (t :: targets) =
      ⟨label, t.1, some t.2⟩ :: surroundings s.kinds targets := by
  rw [h.kinds]
  rfl

/-- The update of a `for` loop, if it has one. -/
def updateSteps : Option ExprCode → Emit Unit
  | none => pure ()
  | some update => update.steps

theorem updateSteps_lays {update : Option Expr} {cu : Option ExprCode}
    (h : Option.Rel (ExprLaid lib v) update cu) :
    Lays lib v (update.toList.map .expr) (updateSteps cu) := by
  cases h with
  | none => exact .pure ()
  | some h => exact h.steps

theorem forLoop_lays {test update : Option Expr} {ct cu : Option ExprCode}
    (hi : Option.Rel (NodeLaid lib v) init ci) (ht : Option.Rel (ExprLaid lib v) test ct)
    (hu : Option.Rel (ExprLaid lib v) update cu) (hb : StmtLaid lib v body cb)
    (hquiet : ∀ e ∈ update, ¬ Continues lib v (.expr e)) (label : Option String) :
    LaysLoop lib v label (.forLoop loc init test update body)
      (forLoop v loc ci ct cu cb label) := by
  intro s _ t hs h
  unfold forLoop at h
  simp only [bind_ok, here_ok] at h
  obtain ⟨_, r1, h1, _, _, h2, _, r2, ⟨rfl, rfl⟩, exit, r3, h3, _, _, h4, _, r4, ⟨rfl, rfl⟩,
    ks, r4', h5, _, r5, h6, h⟩ := h
  obtain ⟨r6, h7, h⟩ : ∃ r6, updateSteps cu r5 = .ok ((), r6) ∧ (do
      jumpTo v r2.frame.code.size loc.line
      endLoop v exit) r6 = .ok ((), t) := by
    cases cu with
    | none => exact ⟨r5, rfl, h⟩
    | some update =>
      obtain ⟨_, r6, h7, h⟩ := bind_ok.1 h
      exact ⟨r6, h7, h⟩
  obtain ⟨_, r7, h8, h9⟩ := bind_ok.1 h
  have ho := pushScope_opens h1
  have hr1 := ho.ready hs
  have pinit := forInit_lays hi hr1 h2
  have hr2 := pinit.ready hr1
  have pbody := (loopTest_tiles ht hr2 h3).step hr2 hb.run h4
  have hparts : Part.parts v (.stmt (.forLoop loc init test update body)) = init.toList.map Node.part ++
      ((test.toList.map .expr ++ [.stmt body]) ++ update.toList.map .expr) := by
    simp [Part.parts, Stmt.parts]
  have pround := (pinit.within (hparts ▸ subset_append_left _ _)).trans (pbody.within
    (hparts ▸ subset_append_of_subset_right _ (subset_append_left _ _)))
  have pturn := Placed.turn ho pround (le_rfl) h5 h6
  have hr5 := pturn.ready hr1
  have pupdate := updateSteps_lays hu hr5 h7
  have pall := pturn.trans (pupdate.within
    (hparts ▸ subset_append_of_subset_right _ (subset_append_right _ _)))
  have hsize := turn_size h5 h6
  have hstart : r2.frame.code.size ≤ r6.frame.code.size := by
    have := pbody.size_le
    have := pupdate.size_le
    omega
  obtain ⟨pback, hsize', hscopes⟩ := jumpTo_placed _ (pall.ready hr1) hstart h8
  have hnone : r7.NoContinues := by
    refine NoContinues.of_scopes (pupdate.noContinues ?_ (noContinues_of_take h5 h6)) hscopes
    intro p hp
    obtain ⟨e, he, rfl⟩ := mem_map.1 hp
    exact hquiet e (Option.mem_toList.1 he)
  refine (Placed.endLoop hs ho (pall.trans pback) (by simp) hnone h9).mono id (fun _ => .rfl) ?_
  rintro code targets ⟨hl, -, hends⟩
  rw [hsize'] at hl hends
  obtain ⟨⟨hround, hup⟩, hjump⟩ := hl r4.frame.code.size
  obtain ⟨hinit, hbody⟩ := hround _ _ rfl rfl
  rw [surroundings_loop ho, ho.code] at hinit
  rw [pinit.kinds_eq, surroundings_loop ho] at hbody
  rw [pturn.kinds_eq, surroundings_loop ho, hsize] at hup
  exact .forLoop hinit hbody hup hjump hends

theorem whileLoop_lays (ht : ExprLaid lib v test ct) (hb : StmtLaid lib v body cb)
    (label : Option String) :
    LaysLoop lib v label (.whileLoop loc test body) (whileLoop v ct cb label) := by
  intro s _ t hs h
  unfold whileLoop at h
  simp only [bind_ok, here_ok] at h
  obtain ⟨_, _, h1, _, r1, ⟨rfl, rfl⟩, exit, r2, h2, _, r3, h3, back, r4, h4, ks, r4', h5, _, r5, h6,
    h7⟩ := h
  have ho := pushScope_opens h1
  have hr1 := ho.ready hs
  have ptest : Tiles lib v exit.toList [.expr test] r1 r2 := by
    split at h2
    · rename_i htrue
      -- The literal `true` has no code.
      obtain ⟨rfl, rfl⟩ := pure_ok.1 h2
      rw [ht.expr] at htrue
      cases test <;> simp only [Emit.isTrue, Bool.false_eq_true] at htrue
      exact .node rfl (.still hr1 (.refl _))
    · exact loopTest_tiles (.some ht) hr1 h2
  have pbody := (ptest.step hr1 (inScope_lays hb) h3).within (p := .stmt (.whileLoop loc test body))
    fun p hp => hp
  obtain ⟨pback, hsize', -⟩ :=
    jumpTo_placed (Quiet lib v [.stmt (.whileLoop loc test body)]) (pbody.ready hr1) pbody.size_le
      (discard_ok.2 ⟨back, h4⟩)
  obtain rfl : back = r3.frame.code.size := by
    obtain ⟨moves, -, rfl, -⟩ := add_ok.1 h4
    rfl
  have pturn := Placed.turn ho (pbody.trans pback) (by omega) h5 h6
  refine (Placed.endLoop hs ho pturn (by simp) (noContinues_of_take h5 h6) h7).mono id (fun _ => .rfl)
    ?_
  rintro code targets ⟨hl, -, hends⟩
  rw [turn_size h5 h6, hsize'] at hl hends
  obtain ⟨hround, hjump⟩ := hl r3.frame.code.size _ _ rfl rfl
  rw [surroundings_loop ho, ho.code] at hround
  rw [ho.code] at hjump
  exact .whileLoop hround hjump hends

theorem doWhile_lays (ht : ExprLaid lib v test ct) (hb : StmtLaid lib v body cb)
    (label : Option String) :
    LaysLoop lib v label (.doWhile loc body test) (doWhile v cb ct label) := by
  intro s _ t hs h
  unfold doWhile at h
  simp only [bind_ok, here_ok] at h
  obtain ⟨_, _, h1, _, r1, ⟨rfl, rfl⟩, _, _, h2, _, r2, ⟨rfl, rfl⟩, _, r3, h3, ks, r3', h4, _, r3'', h5,
    exit, r4, h6, _, r5, h7, h8⟩ := h
  have ho := pushScope_opens h1
  have hr1 := ho.ready hs
  have pbody := inScope_lays hb hr1 h2
  have ptest := ht.kept (pbody.ready hr1) h3
  have pround := (pbody.within (p := .stmt (.doWhile loc body test)) (by simp [Part.parts, Stmt.parts])).trans
    (ptest.within (by simp [Part.parts, Stmt.parts]))
  have pturn := Placed.turn ho pround ptest.size_le h4 h5
  have hr3 := pturn.ready hr1
  have pall := pturn.trans (.jump hr3 h6)
  have hsize := turn_size h4 h5
  obtain ⟨rfl, hsize4⟩ := jump_ok h6
  have hstart : r1.frame.code.size ≤ r4.frame.code.size := by
    have := pround.size_le
    omega
  obtain ⟨pback, hsize', hscopes⟩ :=
    jumpTo_placed (Quiet lib v [.stmt (.doWhile loc body test)]) (pall.ready hr1) hstart h7
  have hnone : r5.NoContinues := by
    refine NoContinues.of_scopes (NoContinues.of_scopes (noContinues_of_take h4 h5) ?_) hscopes
    obtain ⟨moves, -, -, rfl⟩ := add_ok.1 h6
    rfl
  refine (Placed.endLoop hs ho (pall.trans pback) (by simp) hnone h8).mono id (fun _ => .rfl) ?_
  rintro code targets ⟨hl, -, hends⟩
  rw [hsize'] at hl hends
  obtain ⟨⟨hround, -⟩, hjump⟩ := hl r2.frame.code.size
  obtain ⟨hbody, hte⟩ := hround _ _ rfl rfl
  rw [surroundings_loop ho, ho.code] at hbody
  rw [pbody.kinds_eq, surroundings_loop ho] at hte
  rw [ho.code] at hjump
  exact .doWhile hbody (hte.widen (le_rfl) (by omega)) hjump hends

theorem newTemporary_lays (stem : String) (hx : Lays lib v ps x) :
    Lays lib v ps (newTemporary v x stem loc) := by
  refine .own (.neutral (.temporary _)) fun symbol => ?_
  have hlast : Lays lib v [] (do
      assignPop v
      pure symbol) := .own (.straight assignPop_straight) fun _ => .pure _
  split
  · refine .last hx fun _ => ?_
    exact .own (.straight (pushName_straight _ _ _)) fun _ => hlast
  · exact .own (.straight (pushName_straight _ _ _)) fun _ => .last hx fun _ => hlast

theorem foreachLeft_lays {cl : NodeCode} (h : NodeLaid lib v left cl) :
    Lays lib v [left.part] (foreachLeft cl) := by
  exact h.foreachLeft (P := fun n => Lays lib v [n.part]) (fun _ _ _ h hd => h.declares _ hd true)
    (fun _ _ _ h hp => h.pattern _ hp false) fun _ _ _ => .reject

theorem foreach_lays {right : Expr} {cl : NodeCode} {cr : ExprCode} (hl : NodeLaid lib v left cl)
    (hr : ExprLaid lib v right cr) (hb : StmtLaid lib v body cb) (label : Option String) :
    LaysLoop lib v label (.foreach loc left right body) (foreach v loc cl cr cb label) := by
  intro s _ t hs h
  simp only [foreach, bind_ok, here_ok, require_ok] at h
  obtain ⟨_, s, ⟨-, rfl⟩, _, r1, h1, _, r2, h2, _, r3, h3, _, r4, h4, h⟩ := h
  obtain ⟨items, _, h5, _, r5, ⟨rfl, rfl⟩, _, r6, h6, _, r7, h7, _, r8, h8, h⟩ := h
  obtain ⟨exit, r9, h9, _, r10, h10, _, r11, h11, _, r12, h12, _, _, h13, h⟩ := h
  obtain ⟨_, r13, ⟨rfl, rfl⟩, ks, r14, h14, _, r15, h15, _, r16, h16, h17⟩ := h
  have ho := pushScope_opens h1
  have hr1 := ho.ready hs
  have phead := (((hr.value hr1 h2).step hr1 (.neutral (.symbol _)) h3).step hr1 (.emit rfl rfl) h4).step
    hr1 (newTemporary_lays _ (.pure ())) h5
  have hr5 := phead.ready hr1
  have pfetch := ((Lays.straight (readTemporary_straight _ _) hr5 h6).step hr5 (.neutral (.symbol _))
    h7).step hr5 (.emit rfl rfl) h8
  have ptest := pfetch.trans (.jump (pfetch.ready hr5) h9)
  have pbody := (((ptest.step hr5 (.straight (readTemporary_straight _ _)) h10).step hr5
    (.emit rfl rfl) h11).step hr5 (foreachLeft_lays hl) h12).step hr5 (inScope_lays hb) h13
  have pround := (phead.within (p := .stmt (.foreach loc left right body)) (by
    simp [Part.parts, Stmt.parts])).trans (pbody.within (by simp [Part.parts, Stmt.parts]))
  have pturn := Placed.turn ho pround (le_rfl) h14 h15
  have hsize := turn_size h14 h15
  have hstart : r5.frame.code.size ≤ r15.frame.code.size := by
    have := pbody.size_le
    omega
  obtain ⟨pback, hsize', hscopes⟩ := jumpTo_placed _ (pturn.ready hr1) hstart h16
  have hnone := NoContinues.of_scopes (noContinues_of_take h14 h15) hscopes
  refine (Placed.endLoop hs ho (pturn.trans pback) (by simp) hnone h17).mono id (fun _ => .rfl) ?_
  rintro code targets ⟨hlaid, -, hends⟩
  rw [hsize', hsize] at hlaid hends
  obtain ⟨hround, hjump⟩ := hlaid r13.frame.code.size
  obtain ⟨hhead, hbody⟩ := hround _ _ rfl rfl
  rw [surroundings_loop ho, ho.code] at hhead
  rw [phead.kinds_eq, surroundings_loop ho] at hbody
  exact .foreach hhead hbody hjump hends

abbrev CaseLaid (lib : Library) (v : Version) := CaseRel (ExprLaid lib v) (StmtLaid lib v)

theorem caseTests_tiles {subject equals : Symbol} {before after : Option UInt32} {s t : Session}
    (h : Forall₂ (CaseLaid lib v) ks cs) (hs : Ready lib.includeFolder s)
    (hr : caseTests v subject equals before cs s = .ok ((jumps, after), t)) :
    (jumps.length = cs.length ∧ jumps.Nodup ∧
      (∀ k, some k ∈ jumps → s.frame.code.size ≤ k ∧ k < t.frame.code.size) ∧
      (none ∈ jumps → before = none) ∧ (after.isSome ↔ before.isSome ∨ none ∈ jumps)) ∧
    Tiles lib v (jumps.filterMap id) ((ks.filterMap (·.test)).map .expr) s t := by
  induction h generalizing before jumps s with
  | nil =>
    simp only [caseTests, pure_ok, Prod.mk.injEq] at hr
    obtain ⟨⟨rfl, rfl⟩, rfl⟩ := hr
    exact ⟨by simp, .still hs (.refl _)⟩
  | @cons k c ks cs hk _ ih =>
    obtain ⟨ht, -⟩ := hk
    cases ht with
    | none =>
      simp only [caseTests, bind_ok, require_ok, pure_ok, Prod.mk.injEq] at hr
      obtain ⟨_, s, ⟨hbefore, rfl⟩, ⟨jumps, after⟩, r, h1, ⟨rfl, rfl⟩, rfl⟩ := hr
      obtain ⟨⟨hlength, hnodup, hrange, hnone, hsome⟩, hp⟩ := ih hs h1
      have hn : none ∉ jumps := fun hn => by simpa using hnone hn
      exact ⟨⟨by simp [hlength], by simp [hn, hnodup], by simpa using hrange, by simpa using hbefore,
        by simpa using hsome⟩, hp⟩
    | some ht =>
      simp only [caseTests, bind_ok, pure_ok, Prod.mk.injEq] at hr
      obtain ⟨_, r1, h1, _, r2, h2, _, r3, h3, k, r4, h4, ⟨jumps, after⟩, r, h5, ⟨rfl, rfl⟩, rfl⟩ := hr
      have ptest := ((Lays.straight (readTemporary_straight _ _) hs h1).step hs ht.value h2).step hs
        (.emit rfl rfl) h3
      have phead := ptest.trans (.jump (ptest.ready hs) h4)
      obtain ⟨⟨hlength, hnodup, hrange, hnone, hsome⟩, hp⟩ := ih (phead.ready hs) h5
      obtain ⟨rfl, hsize⟩ := jump_ok h4
      have hlow := ptest.size_le
      have hhigh := hp.size_le
      refine ⟨⟨by simp [hlength], ?_, ?_, by simpa using hnone, by simpa using hsome⟩, phead.trans hp⟩
      · refine nodup_cons.2 ⟨fun hk => ?_, hnodup⟩
        have := (hrange _ hk).1
        omega
      · intro k hk
        rcases mem_cons.1 hk with hk | hk
        · cases hk
          omega
        · have := hrange k hk
          omega

theorem caseBodies_tiles {toDefault : Nat} {s t u : Session}
    (hc : Forall₂ (CaseLaid lib v) ks cs) (hs : Ready lib.includeFolder s)
    (hlength : jumps.length = cs.length) (h : Tiles lib v held ps s t)
    (hheld : ∀ k ∈ jumps.map (·.getD toDefault), k ∈ held)
    (hnodup : (jumps.map (·.getD toDefault)).Nodup)
    (hr : caseBodies toDefault cs jumps t = .ok ((), u)) :
    Tiles lib v (held.filter (· ∉ jumps.map (·.getD toDefault)))
      (ps ++ (ks.flatMap (·.consequent)).map .stmt) s u := by
  induction hc generalizing jumps t held ps with
  | nil =>
    obtain rfl := length_eq_zero_iff.1 hlength
    obtain ⟨-, rfl⟩ := pure_ok.1 hr
    simpa using h
  | @cons k c ks cs hk _ ih =>
    obtain ⟨j, jumps, rfl⟩ := exists_cons_of_length_eq_add_one hlength
    simp only [caseBodies, bind_ok] at hr
    obtain ⟨_, r, h1, _, r', h2, h3⟩ := hr
    rw [map_cons, nodup_cons] at hnodup
    rw [map_cons, forall_mem_cons] at hheld
    obtain ⟨-, hbody⟩ := hk
    have pbody := (h.patchHere hheld.1 h1).step hs (runAll_lays hbody) h2
    have hrest : ∀ k ∈ jumps.map (·.getD toDefault), k ∈ held.filter (· ∉ [j.getD toDefault]) := by
      intro k hk
      have hne : k ≠ j.getD toDefault := fun he => hnodup.1 (he ▸ hk)
      simpa [hne] using hheld.2 k hk
    have pall := ih (by simpa using hlength) pbody hrest hnodup.2 h3
    simpa [filter_filter, Bool.and_comm, append_assoc, not_or] using pall

theorem switch_lays {discriminant : Expr} {cases : List SwitchCase} {cd : ExprCode}
    (hd : ExprLaid lib v discriminant cd) (hc : Forall₂ (CaseLaid lib v) cases cs) :
    Lays lib v [.stmt (.switch loc discriminant cases)] (switch v loc cd cs) := by
  intro s _ t hs h
  simp only [switch, bind_ok] at h
  obtain ⟨_, r1, h1, subject, r2, h2, equals, r3, h3, ⟨jumps, dflt⟩, r4, h4, toDefault, r5, h5, _, r6,
    h6, h7⟩ := h
  have ho := pushScope_opens h1
  have hr1 := ho.ready hs
  have phead := (newTemporary_lays "case" hd.value hr1 h2).step hr1 (.neutral (.operatorSymbol _ _)) h3
  obtain ⟨⟨hlength, hnodup, hrange, -, hdflt⟩, ptests⟩ := caseTests_tiles hc (phead.ready hr1) h4
  have pjumps := phead.trans ptests
  have pall := pjumps.trans (.jump (pjumps.ready hr1) h5)
  obtain ⟨rfl, -⟩ := jump_ok h5
  have hnew : some r4.frame.code.size ∉ jumps := fun hk => Nat.lt_irrefl _ (hrange _ hk).2
  have hheld : ∀ k ∈ jumps.map (·.getD r4.frame.code.size),
      k ∈ [] ++ jumps.filterMap id ++ [r4.frame.code.size] := by
    intro k hk
    obtain ⟨j, hj, rfl⟩ := mem_map.1 hk
    cases j with
    | none => simp
    | some j => simp [hj]
  have pbodies := (caseBodies_tiles hc hr1 hlength pall hheld (nodup_map_getD hnodup hnew) h6).within
    (p := .stmt (.switch loc discriminant cases)) (by simp [Part.parts, Stmt.parts])
  have hexits : ∀ k, k ∈ ([] ++ jumps.filterMap id ++ [r4.frame.code.size]).filter
      (· ∉ jumps.map (Option.getD · r4.frame.code.size)) ↔
      k ∈ (if dflt.isSome then none else some r4.frame.code.size).toList := by
    intro k
    have hdefault : none ∈ jumps ↔ dflt.isSome := by simpa using hdflt.symm
    rw [nil_append, mem_unaimed hnew, hdefault]
    cases dflt.isSome <;> simp
  have hnone : r6.NoContinues := fun c rest hc => pbodies.grows.tidy.continues c.mark
    (by simp [sketch, marks, hc]) (by
      show c.kind.isLoop = false
      rw [Placed.innermost_kind ho pbodies hc]
      rfl)
  refine (Placed.endLoop hs ho pbodies hexits hnone h7).mono id (fun _ => .rfl) ?_
  rintro code targets ⟨hl, -, hends⟩
  have hseen : surroundings r1.kinds ((r6.frame.code.size, 0) :: targets) =
      ⟨none, r6.frame.code.size, none⟩ :: surroundings s.kinds targets := by
    rw [ho.kinds]
    rfl
  have hround := hl 0
  rw [hseen, ho.code] at hround
  exact .single (.switch (by simpa [Stmt.parts] using hround) hends)

theorem LaysLoop.lays (h : LaysLoop lib v none stmt x) : Lays lib v [.stmt stmt] x :=
  fun _ _ _ hs hr => (h hs hr).mono id (fun _ => .rfl) fun _ _ hl => .single (.loop hl)

theorem label_of_mem_surroundings {kinds : List ScopeKind} {e : Enclosing}
    (h : e ∈ surroundings kinds targets) (hl : e.label = some l) : .loop (some l) ∈ kinds := by
  induction kinds generalizing targets with
  | nil => simp [surroundings] at h
  | cons kind kinds ih =>
    cases targets with
    | nil => cases kind <;> simp [surroundings] at h
    | cons t targets =>
      cases kind with
      | block | module => exact mem_cons_of_mem _ (ih h)
      | loop label =>
        rcases mem_cons.1 h with rfl | h
        · exact mem_cons.2 (.inl (congrArg _ hl.symm))
        · exact mem_cons_of_mem _ (ih h)
      | switch =>
        rcases mem_cons.1 h with rfl | h
        · cases hl
        · exact mem_cons_of_mem _ (ih h)

theorem labeled_lays (h : StmtLaid lib v stmt c) :
    Lays lib v [.stmt (.labeled loc l stmt)] (labeled loc l c) := by
  intro s _ t hs hr
  simp only [labeled, bind_ok, frame_ok, require_ok] at hr
  obtain ⟨_, s, ⟨rfl, rfl⟩, _, s, ⟨hfree, rfl⟩, hr⟩ := hr
  cases hloop : c.loop? with
  | none =>
    simp only [hloop] at hr
    exact (reject_ok.1 hr).elim
  | some loop =>
    simp only [hloop] at hr
    have hquiet : Quiet lib v [.stmt (.labeled loc l stmt)] → Quiet lib v [.stmt stmt] :=
      (·.parts fun _ hp => hp)
    refine (h.loop loop hloop (some l) hs hr).mono hquiet (fun _ => .rfl) fun code targets hl =>
      .single (.labeled (fun e he hlabel => ?_) hl)
    obtain ⟨scope, hscope, hkind⟩ := mem_map.1 (label_of_mem_surroundings he hlabel)
    have htaken : s.frame.canContinue (some l) = true :=
      any_eq_true.2 ⟨scope, hscope, by simp [continuedBy, hkind, ScopeKind.label?]⟩
    simp [htaken] at hfree

theorem body_lays {cs : List StmtCode} (logs : Bool) (h : Forall₂ (StmtLaid lib v) ss cs) :
    Lays lib v (ss.map .stmt) (Emit.body v logs cs) := by
  cases logs with
  | false => exact runAll_lays h
  | true =>
    intro s _ t hs hr
    simp only [body, Bool.not_true, Bool.false_eq_true, if_false, bind_ok] at hr
    obtain ⟨k, r1, h1, _, r2, h2, _, r3, h3, _, r4, h4, k', r5, h5, _, r6, h6, _, r7, h7, h8⟩ := hr
    have hr1 := Placed.ready_jump hs h1
    have pbody := (runAll_lays h hr1 h2).step hr1 (.straight setExit_straight) h3
    have ptry := Tiles.across hs h1 pbody h4
    have hr4 := ptry.ready hs
    have hr5 := Placed.ready_jump hr4 h5
    have phandler := (Lays.straight (bindThrown_straight _ _ _) hr5 h6).step hr5
      (.straight logException_straight) h7
    simpa using ptry.trans (.across hr4 h5 phandler h8)

abbrev ClauseLaid (lib : Library) (v : Version) := ClauseRel (StmtLaid lib v)

theorem catchClause_lays {k : CatchClause} {c : CatchCode} (h : ClauseLaid lib v k c) :
    Lays lib v [.stmt k.body] (catchClause v c) := by
  obtain ⟨h⟩ := h
  refine .own (.neutral .require) fun _ => ?_
  exact .own (.straight (catchParameter_straight _ _)) fun _ => h.run

theorem finally_lays (h : Option.Rel (StmtLaid lib v) last cl) :
    Lays lib v (last.toList.map .stmt) (match cl with
      | none => pure ()
      | some finalizer => do
        require finalizer.block?.isSome finalizer.loc .catchNotBlock
        finalizer.run) := by
  cases h with
  | none => exact .pure ()
  | some h => exact .own (.neutral .require) fun _ => h.run

theorem tryCatch_lays {tried : Stmt} {handler : Option CatchClause} {ct : StmtCode}
    {ch : Option CatchCode} (ht : StmtLaid lib v tried ct)
    (hh : Option.Rel (ClauseLaid lib v) handler ch) (hl : Option.Rel (StmtLaid lib v) last cl) :
    Lays lib v (.stmt tried :: (handler.toList.map fun h => .stmt h.body) ++ last.toList.map .stmt)
      (Emit.tryCatch v loc ct ch cl) := by
  intro s _ t hs hr
  simp only [Emit.tryCatch, bind_ok] at hr
  obtain ⟨k, r1, h1, _, r2, h2, _, r3, h3, _, r4, h4, _, r5, h5, hr⟩ := hr
  have hr1 := Placed.ready_jump hs h1
  have pbody := ((Lays.neutral .require hr1 h2).step hr1 ht.run h3).step hr1
    (.straight setExit_straight) h4
  have ptry := Tiles.across hs h1 pbody h5
  have hr5 := ptry.ready hs
  cases hh with
  | none => exact ptry.step hs (finally_lays hl) hr
  | some hh =>
    simp only [bind_ok] at hr
    obtain ⟨k', r6, h6, _, r7, h7, _, r8, h8, hr⟩ := hr
    have phandler := catchClause_lays hh (Placed.ready_jump hr5 h6) h7
    exact (ptry.trans (.across hr5 h6 phandler h8)).step hs (finally_lays hl) hr

theorem finalizer_lays {c : ExprCode} (h : ExprLaid lib v e c) :
    Lays lib v [.expr e] (finalizer v loc c) := by
  refine .own (.neutral (checkFinalizer_neutral _)) fun _ => .first h.value fun _ => ?_
  refine .own (.neutral (.temporary _)) fun _ => .own (.straight (pushName_straight _ _ _)) fun _ => ?_
  refine .own (.neutral (.symbol _)) fun _ => .own (.emit rfl rfl) fun _ => ?_
  exact .straight assignPop_straight

theorem returnValue_lays {argument : Option Expr} {ca : Option ExprCode}
    (h : Option.Rel (ExprLaid lib v) argument ca) :
    Lays lib v (argument.toList.flatMap Expr.returnedParts) (returnValue v ca) := by
  have hmark : Lays lib v [] markReturn := .neutral markReturn_neutral
  cases h with
  | none => exact .own (.straight emptyReturn_straight) fun _ => hmark
  | some h =>
    simp only [Option.toList_some, flatMap_cons, flatMap_nil, append_nil]
    rw [← Expr.returnedUses_part]
    refine .last (.last h.returned fun _ => ?_) fun _ => hmark
    refine .ite (.own (.straight pop_straight) fun _ => ?_) (.straight (handOff_straight _))
    exact .own (.straight bareReturn_straight) fun _ => .straight bareReturn_straight

theorem moduleConstructor_lays {ce : ExprCode} (he : ExprLaid lib v e ce)
    (h : StmtLaid lib v stmt c) :
    Lays lib v [.expr e, .stmt stmt] (moduleConstructor v ce c) :=
  .first he.value fun _ => .own (.emit rfl rfl) fun _ => .first h.run fun _ =>
    .straight setExit_straight

theorem print_lays {es : List Expr} {cs : List ExprCode} (h : Forall₂ (ExprLaid lib v) es cs) :
    Lays lib v (es.map .expr) (print v loc cs) := by
  rw [← Use.map_part_exprs .value]
  exact print_lowers h

theorem declare_lays {ds : List Declarator} {cs : List DeclaratorCode} (fromStack : Bool)
    (h : Forall₂ (DeclaratorRel (ExprLaid lib v)) ds cs) :
    Lays lib v (ds.flatMap (Declarator.parts v)) (declare v cs fromStack) := by
  rw [← Declarator.map_part_steps]
  exact declare_holds fromStack h

theorem included_lays (h : Lays lib cx.version ps (cx.follow ss)) :
    Lays lib cx.version ps (included cx.version loc.line path (cx.follow ss)) := by
  refine .own (.neutral .frame) fun f => .own (.neutral (.plainSymbol _)) fun inner => ?_
  refine .own (.neutral (setSource_neutral _)) fun _ => .own (.emit rfl rfl) fun _ => ?_
  have hlast : ∀ outer, Lays lib cx.version [] (do
      emit cx.version (.named .sourceFile outer) loc.line
      setSource f.source) :=
    fun outer => .own (.emit rfl rfl) fun _ => .neutral (setSource_neutral _)
  refine .last h fun _ => ?_
  dsimp only
  split
  · exact .own (.pure _) hlast
  · exact .own (.neutral (.plainSymbol _)) hlast

theorem includeFile_lays {folder : Option String}
    (h : ∀ program, (cx.library folder).Includes path program →
      Lays (cx.library folder) cx.version (program.body.map .stmt) (cx.follow program.body)) :
    Lays (cx.library folder) cx.version [.stmt (.includeFile loc path)] (includeFile cx loc path) := by
  intro s _ t hs hr
  obtain ⟨location, program, r, first, -, hidle, -, hincludes, -, -, hr⟩ :=
    includeFile_ok hs.folder hr
  have hstart : Tiles (cx.library folder) cx.version [] [] s r := .still hs hidle.still
  have hall := hstart.step hs (included_lays (h program hincludes)) hr
  have hquiet : Quiet (cx.library folder) cx.version [.stmt (.includeFile loc path)] →
      Quiet (cx.library folder) cx.version (program.body.map .stmt) := by
    intro hq p hp hc
    obtain ⟨s, hs, rfl⟩ := mem_map.1 hp
    exact hq _ (mem_singleton_self _) (.included hincludes hs hc)
  exact Placed.mono hall hquiet (fun _ => .rfl) fun code targets hl =>
    .single (.includeFile hincludes hl)

end

end Adhoc
