import Adhoc.Proofs.FollowStmt
import Adhoc.Proofs.SafeRoutine

namespace Adhoc

open Emit List Trail Draft Option

section

variable {α : Type} {n : Regime} {lib : Library} {v : Version} {s body : Stmt} {c cb : StmtCode}
  {e test : Expr} {d ct : ExprCode} {loc : Loc} {js : List Nat} {h k : Known}
  {cases : List SwitchCase} {cs : List CaseCode} {x : Emit Unit} {jumps : List (Option Nat)}
  {ci : Option NodeCode} {cl : Option StmtCode} {init : Option Node} {last : Option Stmt}
  {path folder : String} {D E : Trail} {cx : Context} {o : Prop}

theorem Safe.inScope {kind : ScopeKind} (hx : ∀ fresh, Closing n kind (.inner fresh) [] ⊥ D x)
    (hD : D = E) :
    Safe n True h js E (fun _ => js) (pushScope kind >>= fun _ => x) := hD ▸ Closing.nested hx

namespace Trail

@[simp] theorem past_block (D : Trail) : D.past .block = D := past_of_not_isLoop rfl

@[simp] theorem past_switch (D : Trail) : D.past .switch = D := past_of_not_isLoop rfl

@[simp] theorem stray_block (D : Trail) : D.stray .block = ⊥ := stray_of_not_isLoop rfl

@[simp] theorem stray_switch (D : Trail) : D.stray .switch = ⊥ := stray_of_not_isLoop rfl

end Trail

theorem inScope_tracks (h : StmtSafe n lib v s c) : Tracks n lib v [.stmt s] (c.inScope v) := by
  unfold StmtCode.inScope
  rw [h.stmt]
  split
  · exact h.closed rfl
  · exact h.closed rfl
  · exact h.closed rfl
  · exact Safe.inScope (fun _ => .bind (h.run.safe trivial) fun _ => .leave true rfl) (by simp)

theorem ifElse_tracks (loc : Loc) {consequent : Stmt} {alternate : Option Stmt} {cc : StmtCode}
    {ca : Option StmtCode} (ht : ExprSafe n lib v test ct) (hc : StmtSafe n lib v consequent cc)
    (ha : Rel (StmtSafe n lib v) alternate ca) :
    Tracks n lib v (Stmt.parts v (.ifElse loc test consequent alternate)) (ifElse v ct cc ca) := by
  cases ha with
  | none =>
    have hlast : ∀ h k Q, Closing n .block h [k] Q (Q.stray .block) (do
        patchHere k
        leaveScope v false) := fun h k Q => .own (.patchHere (.refl _)) fun _ => .leave false rfl
    intro h js
    apply Safe.inScope
    · intro _
      refine .bind ht.kept fun _ => .own (.jump _) fun k => .bind (inScope_tracks hc).safe fun _ =>
        .ite ?_ (hlast _ k _)
      exact .own (.jump _) fun _ => .own (.patchHere (.refl _)) fun _ => hlast _ k _
    · simp [Stmt.parts, Trail.all_cons]
  | some ha =>
    intro h js
    apply Safe.inScope
    · exact fun _ => .bind ht.kept fun _ => .own (.jump _) fun k =>
        .bind (inScope_tracks hc).safe fun _ => .own (.jump _) fun k' =>
        .own (.patchHere (.swap _ _ _)) fun _ => .bind (inScope_tracks ha).safe fun _ =>
        .own (.patchHere (.refl _)) fun _ => .leave false rfl
    · simp [Stmt.parts, Trail.all_cons]

theorem loopTest_tracks {test : Option Expr} {ct : Option ExprCode}
    (h : Rel (ExprSafe n lib v) test ct) :
    Safe n True k [] (.all lib v (test.toList.map .expr)) toList (loopTest v ct) := by
  cases h with
  | none => exact .leaf (.result none (.refl _))
  | some h => exact .last h.kept fun _ => .own (.jump _) fun k => .result (some k) (.refl _)

theorem forInit_tracks (h : Rel (NodeSafe n lib v) init ci) :
    Tracks n lib v (init.toList.map Node.part) (forInit ci) := by
  cases h with
  | none => exact .leaf (.pure ())
  | some h =>
    exact h.forInit (P := fun m => Tracks n lib v [m.part]) (fun _ _ _ h hd => h.declares _ hd false)
      (fun _ _ h => h.value) fun _ _ _ => .reject

/-- The update of a `for` loop, the jump back and the end of the loop. A jump round the loop that
stands in the update has strayed. -/
theorem loopUpdate_closing {label : Option String} {line : UInt32} {update : Option Expr}
    {cu : Option ExprCode} {start : Nat} (hu : Rel (ExprSafe n lib v) update cu)
    (hstart : start ∈ k.places) (exit : Option Nat) :
    Closing n (.loop label) k exit.toList ⊥ ((all lib v (update.toList.map .expr)).past (.loop label) ⊔
        (all lib v (update.toList.map .expr)).stray (.loop label)) (do
      match cu with
      | none => pure ()
      | some update => update.steps
      jumpTo v start line
      endLoop v exit) := by
  have hback : ∀ Q, Closing n (.loop label) k exit.toList Q (Q.stray (.loop label)) (do
      jumpTo v start line
      endLoop v exit) := fun Q => .own (.jumpTo hstart) fun _ => .endLoop _
  cases hu with
  | none => simpa using hback ⊥
  | some hu => simpa using Closing.bind (Q := ⊥) hu.steps.safe fun _ => hback _

theorem forLoop_behaves {test update : Option Expr} {ct cu : Option ExprCode}
    (hi : Rel (NodeSafe n lib v) init ci) (ht : Rel (ExprSafe n lib v) test ct)
    (hu : Rel (ExprSafe n lib v) update cu) (hb : StmtSafe n lib v body cb)
    (label : Option String) :
    Behaves n (.loop lib v label (.forLoop loc init test update body))
      (forLoop v loc ci ct cu cb label) := by
  intro h js
  apply Safe.inScope
  · exact fun _ => .bind (forInit_tracks hi).safe fun _ => .ownLearn .here fun start =>
      .bind (loopTest_tracks ht) fun exit => .bind (hb.run.safe trivial) fun _ =>
      .ownLearn .here fun _ => .takeContinues fun _ => .own (.patchAll _ (by simp)) fun _ =>
      loopUpdate_closing hu (by simp) exit
  · simp only [Trail.loop, Stmt.parts, Stmt.updates, Trail.all_append, Trail.past_sup, sup_assoc]

theorem isTrue_tracks (h : ExprSafe n lib v test ct) :
    Safe n True k [] (.all lib v [.expr test]) toList
      (loopTest v (if isTrue ct.expr then none else some ct)) := by
  split
  · rename_i ht
    rw [h.expr] at ht
    unfold Emit.isTrue at ht
    split at ht
    · exact .node rfl (.leaf (.result none (.refl _)))
    · cases ht
  · exact loopTest_tracks (.some h)

theorem whileLoop_behaves (ht : ExprSafe n lib v test ct) (hb : StmtSafe n lib v body cb)
    (label : Option String) :
    Behaves n (.loop lib v label (.whileLoop loc test body)) (whileLoop v ct cb label) := by
  have hback {h : Known} {js : List Nat} {start : Nat} (hstart : start ∈ h.places) :
      Gives n True h js ⊥ (fun k => { places := [k] }) (fun _ => js)
        (add v (.jump .always (some start)) 0) := by
    refine .placed (.jumpBack hstart) fun s k t hr => ?_
    obtain ⟨_, -, rfl, rfl⟩ := add_ok.1 hr
    simp
  intro h js
  apply Safe.inScope
  · exact fun _ => .ownLearn .here fun start => .bind (isTrue_tracks ht) fun exit =>
      .bind (inScope_tracks hb).safe fun _ => .ownLearn (hback (by simp)) fun _ =>
      .takeContinues fun _ => .own (.patchAll _ (by simp)) fun _ => .endLoop exit
  · simp [Trail.loop, Stmt.parts, Stmt.updates, Trail.all_cons, Trail.past_sup]

theorem doWhile_behaves (ht : ExprSafe n lib v test ct) (hb : StmtSafe n lib v body cb)
    (label : Option String) :
    Behaves n (.loop lib v label (.doWhile loc body test)) (doWhile v cb ct label) := by
  intro h js
  apply Safe.inScope
  · exact fun _ => .ownLearn .here fun start => .bind (inScope_tracks hb).safe fun _ =>
      .ownLearn .here fun _ => .bind ht.kept fun _ => .takeContinues fun _ =>
      .own (.patchAll _ (by simp)) fun _ => .own (.jump _) fun exit =>
      .own (.jumpTo (by simp)) fun _ => .endLoop (some exit)
  · simp [Trail.loop, Stmt.parts, Stmt.updates, Trail.all_cons, Trail.past_sup]

theorem foreachLeft_tracks {m : Node} {c : NodeCode} (h : NodeSafe n lib v m c) :
    Tracks n lib v [m.part] (foreachLeft c) := by
  exact h.foreachLeft (P := fun m => Tracks n lib v [m.part]) (fun _ _ _ h hd => h.declares _ hd true)
    (fun _ _ _ h hp => pattern_lowers h hp) fun _ _ _ => .reject

theorem foreach_behaves {left : Node} {right : Expr} {cl : NodeCode} {cr : ExprCode}
    (hl : NodeSafe n lib v left cl) (hr : ExprSafe n lib v right cr) (hb : StmtSafe n lib v body cb)
    (label : Option String) :
    Behaves n (.loop lib v label (.foreach loc left right body))
      (foreach v loc cl cr cb label) := by
  intro h js
  refine .own .require fun _ => ?_
  apply Safe.inScope
  · refine fun _ => .bind (E := (all lib v [left.part]).past (.loop label) ⊔
        (all lib v [.stmt body]).past (.loop label)) hr.value fun _ => .looked (.symbol _) fun _ =>
      .own (.emit rfl (by simp)) fun _ => .ownLearn (.newTemporary "in" loc (.pure ())) fun items => ?_
    refine .ownLearn .here fun test => .own (.readTemporary (by simp) (by simp))
      fun _ => .looked (.symbol _) fun _ => .own (.emit rfl (by simp))
      fun _ => .own (.jump _) fun exit => ?_
    refine .own (.readTemporary (by simp) (by simp)) fun _ =>
      .own (.plain rfl rfl) fun _ => .bind (foreachLeft_tracks hl).safe fun _ => ?_
    rw [← sup_bot_eq (past _ _), ← stray_bot]
    exact .bind (inScope_tracks hb).safe fun _ => .ownLearn .here fun _ => .takeContinues fun _ =>
      .own (.patchAll _ (by simp)) fun _ => .own (.jumpTo (by simp)) fun _ =>
      .endLoop (some exit)
  · simp [Trail.loop, Stmt.parts, Stmt.updates, Trail.all_cons, Trail.past_sup]

abbrev CaseSafe (n : Regime) (lib : Library) (v : Version) :=
  CaseRel (ExprSafe n lib v) (StmtSafe n lib v)

theorem caseTests_tracks {subject equals : Symbol} (dflt : Option UInt32)
    (hsubject : subject ∈ k.names) (hlocal : subject ∈ k.locals) (hequals : equals ∈ k.names)
    (h : Forall₂ (CaseSafe n lib v) cases cs) :
    Safe n True k js (.all lib v ((cases.filterMap (·.test)).map .expr))
      (fun r => r.1.filterMap id ++ js) (caseTests v subject equals dflt cs) := by
  induction h generalizing dflt js with
  | nil => exact .leaf (.result _ (.refl _))
  | @cons a c cases cs hk _ ih =>
    obtain ⟨ht, -⟩ := hk
    cases ht with
    | none =>
      exact .own .require fun _ => .last (ih _) fun r => .result _ (.refl _)
    | @some e ct ht =>
      refine .own (.readTemporary hsubject hlocal) fun _ => .first ht.value.safe fun _ => ?_
      refine .own (.emit rfl (by simpa using hequals)) fun _ => .own (.jump _) fun j => ?_
      exact .last (ih dflt) fun r => .result _ perm_middle

theorem map_getD_perm [DecidableEq α] (k : α) (l : List (Option α)) :
    (l.map (·.getD k)).Perm (replicate (l.count none) k ++ l.filterMap id) := by
  induction l with
  | nil => exact .nil
  | cons x l ih =>
    cases x with
    | none => simpa [replicate_succ] using ih
    | some j => simpa using (ih.cons j).trans perm_middle.symm

theorem caseBodies_tracks (toDefault : Nat) (h : Forall₂ (CaseSafe n lib v) cases cs)
    (hjumps : jumps.length = cs.length) (hdeep : k.deep) :
    Safe n True k (jumps.map (·.getD toDefault) ++ js)
      (.all lib v ((cases.flatMap (·.consequent)).map .stmt)) (fun _ => js)
      (caseBodies toDefault cs jumps) := by
  induction h generalizing jumps with
  | nil =>
    obtain rfl := length_eq_zero_iff.1 hjumps
    exact .leaf (.pure ())
  | cons hk _ ih =>
    obtain ⟨-, hstmts⟩ := hk
    rcases jumps with _ | ⟨jump, jumps⟩
    · cases hjumps
    · rw [flatMap_cons, map_append]
      refine .own (.patchHere (.refl _)) fun _ =>
        .append ((runAll_performs hstmts).safe hdeep) fun _ => ?_
      exact ih (Nat.succ.inj hjumps)

theorem caseJumps_perm {dflt : Option UInt32} (toDefault : Nat)
    (h : jumps.count none = dflt.toList.length) :
    (toDefault :: jumps.filterMap id).Perm (jumps.map (·.getD toDefault) ++
      (if dflt.isSome then none else some toDefault).toList) := by
  refine .trans ?_ ((map_getD_perm toDefault jumps).append_right _).symm
  rw [h]
  cases dflt with
  | none => simpa using (perm_append_singleton _ _).symm
  | some => simp

theorem switch_tracks {discriminant : Expr} {cd : ExprCode} (hd : ExprSafe n lib v discriminant cd)
    (h : Forall₂ (CaseSafe n lib v) cases cs) :
    Tracks n lib v (Stmt.parts v (.switch loc discriminant cases)) (switch v loc cd cs) := by
  intro k js
  apply Safe.inScope
  · intro _
    refine .learn (.newTemporary "case" loc hd.value) (fun _ _ _ _ => trivial) fun subject _ =>
      .looked (.operatorSymbol _ _) fun equals => .learn
      (caseTests_tracks none (by simp) (by simp) (by simp) h)
      (fun _ r _ => caseTests_ok) fun r hr => .own (.jump _) fun toDefault =>
      .bind (.reorder ?_ (caseBodies_tracks toDefault h hr.1 trivial)) fun _ => .endLoop _
    rw [List.append_nil]
    exact caseJumps_perm toDefault hr.2
  · simp [Stmt.parts, Trail.all_cons, Trail.all_append]

theorem Answers.required {b : Bool} {cause : Cause} {x : Emit α} {s : Session} {deep : Prop}
    {good : α → Session → Prop} (hx : b = true → Answers deep good (x s)) :
    Answers deep good ((require b loc cause >>= fun _ => x) s) := by
  cases b with
  | true => exact hx rfl
  | false => exact trivial

theorem noted_ok {note : Nat → Drafting (Option Bool)} {s : Session} {scopes : List Scope}
    (line : UInt32) (h : ∀ d : Draft, d.scopes = s.frame.scopes →
      ∃ noted, note s.frame.code.size d = .ok (noted, { d with scopes := scopes })) :
    (do
      let jump ← jump v .always line
      discard (onFrame (note jump))) s = .ok ((), s.at (s.frame.jumped
        (s.frame.depth.follow Jump.always.effect) line scopes)) := by
  obtain ⟨noted, hnote⟩ := h (s.frame.write ⟨line, .jump .always none⟩
    (s.frame.depth.follow Jump.always.effect)) rfl
  exact bind_ok.2 ⟨_, _, add_ok.2 ⟨_, rfl, rfl, rfl⟩, discard_ok.2 ⟨_, onFrame_ok.2 ⟨_, hnote, rfl⟩⟩⟩

theorem continueLoop_tracks (loc : Loc) (label : Option String) :
    Tracks n lib v [.stmt (.continueLoop loc label)] (continueLoop v loc label) := by
  intro h js s hs _
  rw [all_singleton, of_leaf rfl rfl rfl rfl rfl]
  show Answers _ _ ((require (s.frame.canContinue label) loc _ >>= fun _ => _) s)
  refine .required fun hcan => ?_
  obtain ⟨before, c, after, hscopes, hbefore, hcatches, hupdate⟩ :=
    updateFirst_eq_some (f := (·.addContinue s.frame.code.size)) hcan
  have hkind := isLoop_of_continuedBy hcatches
  let c' : Scope := { c with continues := c.continues ++ [s.frame.code.size] }
  have hnote : (c.addContinue s.frame.code.size).2 = c' := by simp [Scope.addContinue, hkind, c']
  have hperm : c'.mark.notes.Perm (s.frame.code.size :: c.mark.notes) := by
    simp only [c', Mark.notes, Scope.mark, ← append_assoc]
    exact perm_append_singleton _ _
  have hbreaks : c.kind.takesBreak = false → c'.breaks = [] :=
    hs.tidy.breaks c.mark (by simp [sketch, marks, hscopes])
  have hrounds : Rounds {.leaves label} s.frame.scopes (before ++ c' :: after) :=
    hscopes ▸ .note hcatches hbefore
  obtain ⟨hp, ht⟩ := RunInvariant.note (D := fun _ => {.leaves label}) loc.line
    (s.frame.depth.follow Jump.always.effect) hs.toSound hscopes (.addContinue id _)
    (show c'.bare = c.bare from rfl) hperm hbreaks (fun h => by simp [hkind] at h) (fun _ => hrounds)
    fun _ h => by cases h
  refine .of_ok (noted_ok loc.line fun d hd => ?_) ⟨hp.frame js id, hs.framed hp ht fun _ => id⟩
  simp only [noteContinue, hd, hupdate, hnote]
  exact ⟨_, rfl⟩

theorem breakOut_behaves (loc : Loc) (label : Option String) :
    Behaves n ⊥ (breakOut v loc label) := by
  intro h js s hs _
  show Answers _ _ ((require (s.frame.canBreak label) loc _ >>= fun _ => _) s)
  refine .required fun hcan => ?_
  obtain ⟨before, c, after, hscopes, -, hleft, hupdate⟩ :=
    updateFirst_eq_some (f := (·.addBreak s.frame.code.size)) hcan
  have hkind := takesBreak_of_leftBy hleft
  let c' : Scope := { c with breaks := c.breaks ++ [s.frame.code.size] }
  have hnote : (c.addBreak s.frame.code.size).2 = c' := by simp [Scope.addBreak, hkind, c']
  have hperm : c'.mark.notes.Perm (s.frame.code.size :: c.mark.notes) := by
    simp only [c', Mark.notes, Scope.mark, append_assoc]
    exact perm_middle
  have hcontinues : c.kind.isLoop = false → c'.continues = [] :=
    hs.tidy.continues c.mark (by simp [sketch, marks, hscopes])
  have hrounds : ∀ f, Rounds ((⊥ : Trail) f) s.frame.scopes (before ++ c' :: after) := fun f =>
    (Rounds.refl (fun _ => notMem_bot) _).congr (by simp [hscopes, c'])
  obtain ⟨hp, ht⟩ := RunInvariant.note (D := ⊥) 0 (s.frame.depth.follow Jump.always.effect) hs.toSound
    hscopes (.addBreak _) (show c'.bare = c.bare from rfl) hperm (fun h => by simp [hkind] at h)
    hcontinues hrounds fun _ => notMem_bot
  refine .of_ok (noted_ok 0 fun d hd => ?_) ⟨hp.frame js id, hs.framed hp ht fun _ => id⟩
  simp only [noteBreak, hd, hupdate, hnote]
  exact ⟨_, rfl⟩

theorem labeled_tracks {label : String} (h : StmtSafe n lib v s c) :
    Tracks n lib v [.stmt (.labeled loc label s)] (labeled loc label c) := by
  refine .own .frame fun f => .own .require fun _ => ?_
  cases hloop : c.loop? with
  | some loop =>
    obtain ⟨hs, hbehaves⟩ := h.loop _ hloop
    rw [all_singleton, of_labeled hs]
    exact hbehaves (some label)
  | none => exact .reject

theorem returnedValue_concludes (h : ExprSafe n lib v e d) :
    Concludes n True (.all lib v e.returnedParts) (returnedValue v d) := by
  rw [← Expr.returnedUses_part]
  refine .after h.returned fun _ => ?_
  split
  · exact .after .pop fun _ => .after .bareReturn fun _ => .bareReturn
  · exact .handOff

theorem returnValue_performs {argument : Option Expr} {ca : Option ExprCode}
    (h : Rel (ExprSafe n lib v) argument ca) :
    Performs n lib v (argument.toList.flatMap Expr.returnedParts) (returnValue v ca) := by
  cases h with
  | none =>
    rw [Option.toList_none, List.flatMap_nil, Performs, Trail.all_nil]
    exact Concludes.emptyReturn.marked
  | some h =>
    rw [toList_some, flatMap_singleton]
    exact (returnedValue_concludes h).marked

theorem bindThrown_safe (name : String) (nameLoc : Loc) (line : UInt32) :
    Clean n True h js (bindThrown v name nameLoc line) :=
  .own (.plain rfl rfl) fun _ => .own (.pushName trivial _ _ _) fun _ => .own (.plain rfl rfl) fun _ =>
    .looked (.temporary _) fun _ => .own (.pushName trivial _ _ _) fun _ => .assignPop

abbrev ClauseSafe (n : Regime) (lib : Library) (v : Version) := ClauseRel (StmtSafe n lib v)

theorem catchParameter_safe (line : UInt32) (param : Option Expr) :
    Clean n True h js (catchParameter v line param) := by
  unfold catchParameter
  cases param with
  | none => exact .own (.plain rfl rfl) fun _ => .plain rfl rfl
  | some param =>
    simp only
    cases param.ident? with
    | none => exact .reject
    | some name => exact bindThrown_safe _ _ _

/-- Nothing in a block is at the top of a frame. -/
theorem StmtSafe.ofBlock (h : StmtSafe n lib v s c) (hblock : c.block?.isSome = true) :
    Tracks n lib v [.stmt s] c.run := by
  obtain ⟨body, hb⟩ := isSome_iff_exists.1 hblock
  exact h.closed (h.block body hb).1

theorem finally_tracks (hl : Rel (StmtSafe n lib v) last cl) :
    Tracks n lib v (last.toList.map .stmt) (match cl with
      | none => pure ()
      | some finalizer => do
        require finalizer.block?.isSome finalizer.loc .catchNotBlock
        finalizer.run) := by
  cases hl with
  | none => exact .leaf (.pure ())
  | some hl => exact require_bind .reject fun hblock => (hl.ofBlock hblock).safe

theorem tryCatch_tracks {tried : Stmt} {handler : Option CatchClause} {ct : StmtCode}
    {ch : Option CatchCode} (ht : StmtSafe n lib v tried ct)
    (hh : Rel (ClauseSafe n lib v) handler ch) (hl : Rel (StmtSafe n lib v) last cl) :
    Tracks n lib v (Stmt.parts v (.tryCatch loc tried handler last)) (tryCatch v loc ct ch cl) := by
  have hlast : Tracks n lib v (last.toList.map .stmt) _ := finally_tracks hl
  intro h js
  cases hh with
  | none =>
    refine .own (.jump _) fun k => require_bind .reject fun hblock =>
      .first (ht.ofBlock hblock).safe fun _ => ?_
    exact .own (.setState _) fun _ => .own (.patchHere (.refl _)) fun _ => .own (.pure ()) fun _ => hlast.safe
  | @some handler ch hh =>
    obtain @⟨hloc, param, body, cb, hb⟩ := hh
    have hclause : Tracks n lib v [.stmt body] (catchClause v ⟨hloc, param, cb⟩) :=
      require_bind .reject fun hblock => .own (catchParameter_safe _ _) fun _ =>
        (hb.ofBlock hblock).safe
    refine .own (.jump _) fun k => require_bind .reject fun hblock =>
      .first (ht.ofBlock hblock).safe fun _ => ?_
    refine .own (.setState _) fun _ => .own (.patchHere (.refl _)) fun _ => .own (.jump _) fun k' => ?_
    exact .first hclause.safe fun _ => .own (.patchHere (.refl _)) fun _ => hlast.safe

theorem finalizer_tracks (h : ExprSafe n lib v e d) :
    Tracks n lib v [.expr e] (finalizer v loc d) := by
  have hcheck : Behaves n ⊥ (checkFinalizer d.expr) := by
    unfold checkFinalizer
    split
    · exact .own .require fun _ => .require
    · exact .require
    · exact .reject
  intro k js
  exact .own hcheck fun _ => .last h.value fun _ => .looked (.temporary _) fun _ =>
    .own (.pushName trivial _ _ _) fun _ => .looked (.symbol _) fun _ =>
    .own (.emit rfl (by simp)) fun _ => .assignPop

theorem logException_safe : Clean n True h js (logException v) :=
  .own (.member trivial _ _ _) fun _ => .own (.text _ _ _) fun _ => .own (.text _ _ _) fun _ =>
    .own (.plain rfl rfl) fun _ => .own (.afterCall _) fun _ => .own .pop fun _ =>
    .own (.readName trivial _ _) fun _ => .plain rfl rfl

theorem body_performs {ss : List Stmt} {cs : List StmtCode} (h : Forall₂ (StmtSafe n lib v) ss cs) :
    Performs n lib v (ss.map .stmt) (Emit.body v n.logs cs) := by
  unfold Emit.body
  cases hlogs : n.logs with
  | false => exact runAll_performs h
  | true =>
    refine .own (.jump _) fun k => .last ((runAll_performs h).framed id (.inr hlogs)) fun _ => ?_
    refine .own (.setState _) fun _ => .own (.patchHere (.refl _)) fun _ => .own (.jump _) fun k' => ?_
    exact .own (bindThrown_safe _ _ _) fun _ => .own logException_safe fun _ => .patchHere (.refl _)

theorem block_tracks {isEmpty : Bool} {ps : List Part} (h : Performs n lib v ps x) :
    Tracks n lib v ps (block v isEmpty x) :=
  .inScope (fun _ => .bind (h.safe trivial) fun _ => .leave _ rfl) (by simp)

theorem declare_tracks {ds : List Declarator} {cs : List DeclaratorCode} (fromStack : Bool)
    (h : Forall₂ (DeclaratorRel (ExprSafe n lib v)) ds cs) :
    Tracks n lib v (ds.flatMap (Declarator.parts v)) (declare v cs fromStack) := by
  have hall : Behaves n (⊥ ⊔ .all lib v ((ds.flatMap (Declarator.steps v)).map Use.part)) _ :=
    declare_holds fromStack h
  rwa [bot_sup_eq, Declarator.map_part_steps] at hall

theorem moduleConstructor_performs (hd : ExprSafe n lib v e d) (hs : StmtSafe n lib v s c) :
    Performs n lib v [.expr e, .stmt s] (moduleConstructor v d c) :=
  .first hd.value fun _ => .own (.plain rfl rfl) fun _ => .last hs.run fun _ => .setState _

theorem print_tracks {es : List Expr} {cs : List ExprCode}
    (h : Forall₂ (ExprSafe n lib v) es cs) :
    Tracks n lib v (es.map .expr) (print v loc cs) := by
  rw [← Use.map_part_exprs .value]
  exact print_lowers h

theorem undef_behaves (loc : Loc) (name : String) : Behaves n ⊥ (undef v loc name) :=
  .looked (.pathSymbols _) fun _ => .emit rfl fun _ hy => mem_append_left _ hy

theorem plainSymbol_name {name : String} {x : Symbol} {s t : Session}
    (h : plainSymbol name s = .ok (x, t)) : x.name = name := by
  cases h
  exact SymbolTable.name_of_find? (s.symbols.intern_found name false)

/-- The code from here on comes from another file. -/
theorem setSource_safe {x : Symbol} (hx : x ∈ h.names) (hname : x.name = path) :
    Safe n o h js (fun _ => {.renames path}) (fun _ => js) (setSource (some x)) := by
  intro s hs _
  subst hname
  have hp : RunInvariant n (fun _ => {.renames x.name}) [] [] s
      (s.at { s.frame with source := some x }) :=
    { RunInvariant.refl (n := n) s with
      stays := .of_bare rfl
      folder := .inl rfl
      source := .inr ⟨"", rfl⟩
      rounds := fun f _ => .refl (by simp) _
      balance := ⟨0, rfl, fun f _ => iff_of_false (Nat.lt_irrefl 0) (by simp)⟩
      exits := fun _ hs => hs.congr rfl id fun _ => id }
  have ht : (s.at { s.frame with source := some x }).Sound :=
    ⟨hs.table, ⟨⟨x, rfl, hs.names x hx⟩, hs.frame.parameters, hs.frame.captured, hs.frame.code⟩,
      hs.tidy, hs.base⟩
  exact .of_ok rfl ⟨hp.frame js id, hs.framed hp ht fun _ => id⟩

theorem Safe.fileSymbol {js' : α → List Nat} {f : Symbol → Emit α}
    (hf : ∀ x : Symbol, x.name = path → Safe n o (h.add { names := [x] }) js D js' (f x)) :
    Safe n o h js D js' (plainSymbol path >>= f) := by
  have := Gives.bindWhere (Interns.plainSymbol path).gives (fun _ _ _ h => plainSymbol_name h) hf
  rwa [bot_sup_eq] at this

theorem sourceFile_tracks (loc : Loc) (path : String) :
    Tracks n lib v [.stmt (.sourceFile loc path)] (sourceFile v path) := by
  rw [Tracks, all_singleton, of_leaf rfl rfl rfl rfl rfl]
  exact .fileSymbol fun x hx => .own (.emit rfl (by simp)) fun _ =>
    setSource_safe (by simp) hx

theorem locateInclude_answers {s : Session} (loc : Loc) (path : String) (hs : s.Sound) :
    Answers False (fun location t => ∃ folder, s.Finds ⊥ folder ∧
      t = { s with includeFolder := some folder } ∧
      (cx.library none).locate? folder path = some location) (locateInclude cx loc path s) := by
  have hfolder : Answers False (fun folder t => s.Finds ⊥ folder ∧
      t = { s with includeFolder := some folder }) (includeFolder s) := by
    unfold includeFolder
    cases hf : s.includeFolder with
    | some folder => exact ⟨.inl hf, by rw [← hf]⟩
    | none =>
      obtain ⟨x, hx, -⟩ := hs.frame.source
      simp only [hx]
      exact ⟨.inr ⟨hf, x.name, .inl (by rw [sourceName, hx]), rfl⟩, rfl⟩
  refine hfolder.bind ?_
  rintro folder r ⟨hfinds, rfl⟩
  dsimp only
  split
  · exact ⟨folder, hfinds, rfl, by simp [Library.locate?, Context.library, *]⟩
  · cases hp : cx.projectFolder with
    | none => exact trivial
    | some project =>
      dsimp only
      split
      · exact ⟨folder, hfinds, rfl, by simp [Library.locate?, Context.library, *]⟩
      · exact trivial

theorem included_answers {m : Regime} {s : Session} (loc : Loc) (path : String) (hs : s.Sound)
    (hopen : s.frame.scopes ≠ []) (hfolder : s.includeFolder = some folder) (hx : Acts m E x)
    (hleaves : ∀ label, .leaves label ∈ E folder ↔ .leaves label ∈ D folder)
    (hstrays : .strays ∈ E folder ↔ .strays ∈ D folder) :
    Answers (.nests m.depth ∈ E folder) (fun _ t => RunInvariant m D [] [] s t ∧ t.Sound)
      (included v loc.line path x s) := by
  obtain ⟨outer, houter, hlists⟩ := hs.frame.source
  let marked : Emit Unit := do
    let inner ← plainSymbol path
    setSource (some inner)
    emit v (.named .sourceFile inner) loc.line
    x
    emit v (.named .sourceFile outer) loc.line
    setSource (some outer)
  have hmarked : Safe m True { names := [outer] } []
      ((fun _ => {.renames path}) ⊔ (E ⊔ fun _ => {.renames outer.name})) (fun _ => []) marked := by
    refine .fileSymbol fun inner hinner => .bind (setSource_safe (by simp) hinner) fun _ => ?_
    refine .own (.emit rfl (by simp)) fun _ => .bind (hx.framed id (.inl rfl)) fun _ => ?_
    exact .own (.emit rfl (by simp)) fun _ =>
      setSource_safe (by simp) rfl
  have hsource : ∀ ⦃t⦄, marked s = .ok ((), t) → t.frame.source = some outer := by
    intro t ht
    simp only [marked, bind_ok] at ht
    obtain ⟨_, _, -, _, _, -, _, _, -, _, _, -, _, r, -, hlast⟩ := ht
    cases hlast
    rfl
  have hholds : s.Holds { names := [outer] } [] :=
    { Session.Holds.of_sound hs with names := fun y hy => mem_singleton.1 hy ▸ hlists }
  have hrun : Answers (.nests m.depth ∈ E folder) (fun _ t => RunInvariant m D [] [] s t ∧ t.Sound)
      (marked s) := by
    refine (hmarked s hholds fun _ => hopen).eq.mono ?_ ?_
    · rintro ⟨f, hf | ⟨hf, -⟩, hn⟩
      · obtain rfl := some.inj (hfolder.symm.trans hf)
        simpa [mem_sup] using hn
      · exact absurd (hfolder.symm.trans hf) (by simp)
    · rintro ⟨⟩ t ⟨⟨hp, ht⟩, hr⟩
      refine ⟨hp.settled hfolder ?_ ?_ ?_, ht.toSound⟩
      · rw [sourceName, sourceName, hsource hr, houter]
      · intro label
        simp [hleaves]
      · simp [hstrays]
  have hframe : ∀ g : Draft → Emit Unit, (frame >>= g) s = g s.frame s := fun _ => rfl
  rw [Emit.included, hframe]
  simpa only [houter, pure_bind] using hrun

/-- The statements of an included file are followed to the depth that is left. -/
def Reaches (n : Regime) (lib : Library) (v : Version) (ss : List Stmt) (x : Emit Unit) : Prop :=
  match n.depth with
  | 0 => ∀ s, x s = .error .includesTooDeep
  | depth + 1 => Performs ⟨depth, n.logs⟩ lib v (ss.map .stmt) x

theorem Trail.mem_of_included {program : Program} (hi : (lib.at folder).Includes path program)
    {e : Slip} :
    e ∈ of lib v (.stmt (.includeFile loc path)) folder ↔
      e = .nests 0 ∨ e ∈ (all lib v (program.body.map .stmt)).included folder := by
  rw [mem_of_includeFile]
  refine ⟨fun ⟨program', hi', he⟩ => ?_, fun he => ⟨program, hi, he⟩⟩
  rwa [Library.Includes.eq hi' hi rfl]

theorem Trail.mem_included_jump {f : String} {e : Slip}
    (he : e = .strays ∨ ∃ label, e = .leaves label) : e ∈ D.included f ↔ e ∈ D f := by
  refine ⟨fun ⟨e', he', h⟩ => ?_, fun h => ⟨e, h, ?_⟩⟩
  · rcases he with rfl | ⟨label, rfl⟩ <;> cases e' <;> cases h <;> exact he'
  · rcases he with rfl | ⟨label, rfl⟩ <;> rfl

theorem Session.exists_finds (s : Session) (D : Trail) : ∃ f, s.Finds D f := by
  cases hf : s.includeFolder with
  | some f => exact ⟨f, .inl hf⟩
  | none => exact ⟨_, .inr ⟨hf, _, .inl rfl, rfl⟩⟩

theorem includeFile_performs (loc : Loc) (path : String)
    (h : ∀ ss, Reaches n (cx.library none) cx.version ss (cx.follow ss)) :
    Performs n (cx.library none) cx.version [.stmt (.includeFile loc path)]
      (includeFile cx loc path) := by
  rw [Performs, all_singleton]
  intro s hs hopen
  refine ((locateInclude_answers loc path hs.toSound).mono False.elim fun _ _ h => h).bind ?_
  rintro location r ⟨folder, hfinds, rfl, hlocate⟩
  cases hread : cx.sources.read? location with
  | none => exact trivial
  | some program =>
    have hmem {e : Slip} : e ∈ of _ cx.version (.stmt (.includeFile loc path)) folder ↔ _ :=
      mem_of_included (Library.at_includes.2 ⟨location, hlocate, hread⟩)
    let r : Session := { s with includeFolder := some folder }
    have hr : r.Sound := ⟨hs.table, hs.frame, hs.tidy, hs.base⟩
    -- The statements leave their trail; at depth 0 the include itself goes too deep.
    obtain ⟨m, E, hE, hlogs, hnests, hjumps⟩ : ∃ m E, Acts m E (cx.follow program.body) ∧
        m.logs = n.logs ∧ (.nests m.depth ∈ E folder → .nests n.depth ∈
          of (cx.library none) cx.version (.stmt (.includeFile loc path)) folder) ∧
        ∀ e, (e = .strays ∨ ∃ label, e = .leaves label) → (e ∈ E folder ↔
          e ∈ all (cx.library none) cx.version (program.body.map .stmt) folder) := by
      obtain ⟨depth, logs⟩ := n
      cases depth with
      | zero =>
        refine ⟨⟨0, logs⟩, .all (cx.library none) cx.version (program.body.map .stmt) ⊔
          fun _ => {.nests 0}, fun s _ _ => ?_, rfl, fun _ => hmem.2 (.inl rfl), fun e he => ?_⟩
        · rw [h program.body s]
          obtain ⟨f, hf⟩ := s.exists_finds _
          exact ⟨f, hf, .inr rfl⟩
        · rcases he with rfl | ⟨label, rfl⟩ <;> simp
      | succ depth =>
        exact ⟨⟨depth, logs⟩, _, h program.body, rfl, fun hn => hmem.2 (.inr ⟨_, hn, rfl⟩),
          fun _ _ => Iff.rfl⟩
    have hsame : ∀ e, (e = .strays ∨ ∃ label, e = .leaves label) → (e ∈ E folder ↔
        e ∈ of (cx.library none) cx.version (.stmt (.includeFile loc path)) folder) := by
      intro e he
      rw [hjumps e he, hmem, mem_included_jump he, or_iff_right]
      rcases he with rfl | ⟨label, rfl⟩ <;> simp
    refine (included_answers (v := cx.version) loc path hr (hopen trivial) rfl hE
      (fun label => hsame _ (.inr ⟨label, rfl⟩)) (hsame _ (.inl rfl))).mono (fun hn => ?_) ?_
    · exact ⟨folder, hfinds.mono fun _ h => h.elim fun _ h => h.elim, hnests hn⟩
    · rintro ⟨⟩ t ⟨hp, ht⟩
      have hlocated : RunInvariant n ⊥ [] [] s r :=
        { RunInvariant.refl (n := n) s with
          folder := hfinds.imp (fun hf => hf.symm) fun hf => ⟨hf.1, folder, rfl, hfinds⟩
          rounds := fun f _ => .refl (fun _ => notMem_bot) _
          balance := ⟨0, rfl, fun f _ => iff_of_false (Nat.lt_irrefl 0) notMem_bot⟩ }
      have hinvariant := hlocated.trans { hp with exits := hlogs ▸ hp.exits }
      rw [bot_sup_eq] at hinvariant
      exact ⟨hinvariant, .of_sound ht⟩

end
end Adhoc
