import Adhoc.Proofs.Addressing

namespace Adhoc

open Emit

namespace Draft

variable {known : Symbol → Prop} {d e : Draft} {ds : List Deed} {x : Symbol} {i : Nat} {index : Int}

/-- The frame is a closure that has captured the name from the frame around. -/
def HasCaptured (d : Draft) (x : Symbol) : Prop :=
  x ∈ d.captured ∧ ∃ outer, d.enclosing = some outer ∧ x ∈ outer

theorem captures_of_live (hi : d.slots.localIndex? x = some i) :
    d.captures x = true ↔ d.HasCaptured x := by
  have hlive : d.slots.hasLocal x = true := by simp [Slots.hasLocal, hi]
  unfold captures HasCaptured
  cases d.enclosing with
  | none => simp
  | some outer => simp [hlive, and_comm]

/-- A captured name is resolved to the captured variable, whatever slots the frame has. -/
theorem HasCaptured.resolve {use : Access} (h : d.HasCaptured x) (huse : use = .read ∨ use = .write) :
    Draft.resolve x use d = .ok (Int.negSucc (d.captured.idxOf x), d) := by
  obtain ⟨hmem, outer, henclosing, houter⟩ := h
  have hc : d.captures x = true := by simp [captures, henclosing, houter, hmem]
  rcases huse with rfl | rfl
  all_goals
    simp only [Draft.resolve, hc, if_true, capture, List.contains_eq_mem, hmem, decide_true]
    rfl

theorem declare_ok (h : resolve x .declare d = .ok (index, e)) :
    (∃ n : Nat, index = n ∧ e.slots.localIndex? x = some n) ∧ d.Resolves e ∧
      e.captured = d.captured := by
  obtain ⟨hr, hn, -⟩ := @useLocal_ok _ (fun _ => True) _ _ _ trivial h
  exact ⟨hn, hr, (useLocal_slots h).2.2⟩

theorem Change.captured_live (h : d.Change known e ds) (hx : d.slots.localIndex? x ≠ .none) :
    x ∈ e.captured ↔ x ∈ d.captured := by
  cases h with
  | none _ _ hc | addLocal _ _ _ _ _ hc | addStatic _ _ _ _ _ hc | addMember _ _ _ _ hc
  | addStatics _ _ hc => rw [hc]
  | @capture y _ hcaptures hmem _ _ hc =>
    have hne : x ≠ y := by
      rintro rfl
      exact hx (captures_localIndex? hcaptures hmem)
    rw [hc, List.mem_append, List.mem_singleton, or_iff_left hne]

end Draft

theorem Course.captured_live {v : Version} {ds : List Deed} {s t : Session} {x : Symbol}
    (h : Course v ds s t) (hx : s.frame.slots.localIndex? x ≠ none) :
    x ∈ t.frame.captured ↔ x ∈ s.frame.captured := by
  -- What is live stays so on the way, since a scope frees only what it noted itself.
  have hlive : ∀ {ds s t}, Course v ds s t → s.frame.slots.localIndex? x ≠ none →
      t.frame.slots.localIndex? x ≠ none := fun hc hx hn => hx (hc.locals.1.localIndex?_none hn)
  induction h with
  | nil => rfl
  | step hc hstep ih =>
    obtain ⟨_, _, -, hchange, -⟩ := hstep.act
    exact (hchange.captured_live (hlive hc hx)).trans (ih hx)
  | scope hc hin hleave ih ihin =>
    obtain ⟨c, hcloses, -, -⟩ := leaveScope_closes hleave
    have hr := hlive hc hx
    rw [hcloses.captured]
    exact (ihin hr).trans (ih hx)
  | module hc hin hleave ih ihin =>
    obtain ⟨c, hcloses, -, -⟩ := leaveModuleScope_closes hleave
    have hr := hlive hc hx
    rw [hcloses.captured]
    exact (ihin hr).trans (ih hx)
  | closure hc hdefaults _ _ _ _ _ hemit ih ihdefaults _ ihreads =>
    obtain ⟨depth, rfl⟩ := emit_ok hemit
    have hr := hlive hc hx
    have hu := hlive hdefaults hr
    exact (ihreads hu).trans ((ihdefaults hr).trans (ih hx))
  | definition _ _ _ _ _ _ hemit ih =>
    obtain ⟨depth, rfl⟩ := emit_ok hemit
    exact ih hx

/-- After a declaration and any statements behind it in its scope, a read or an assignment of the name
is resolved to the slot of the declaration exactly if the frame had not captured the name before. If it
had, the name is still resolved as it was then. -/
theorem declaration_shadows_iff {o : Options} {sources : Sources} {depth : Nat} {ss : List Stmt}
    {s t : Session} {x : Symbol} {index : Int} {d : Draft} {use : Access}
    (hdeclare : Draft.resolve x .declare s.frame = .ok (index, d))
    (hrun : runAll (stmtCodes (o.context sources depth) ss) (s.at d) = .ok ((), t))
    (huse : use = .read ∨ use = .write) :
    ∃ i, Draft.resolve x use t.frame = .ok (i, t.frame) ∧ (i = index ↔ ¬ s.frame.HasCaptured x) ∧
      (s.frame.HasCaptured x → Draft.resolve x use s.frame = .ok (i, s.frame)) := by
  obtain ⟨⟨n, rfl, hn⟩, hr, hcaptured⟩ := Draft.declare_ok hdeclare
  obtain ⟨ds, hc, -⟩ := runAll_lowers (stmtCodes_forall₂ fun s _ => Stmt.follows o sources depth none s)
    (fun _ hf => nomatch hf) hrun
  have hlive : t.frame.slots.localIndex? x = some n := hc.locals.1.localIndex? hn
  have hmem : x ∈ t.frame.captured ↔ x ∈ s.frame.captured := by
    rw [← hcaptured]
    exact hc.captured_live (by simp [Session.at, hn])
  have hsame : t.frame.HasCaptured x ↔ s.frame.HasCaptured x := by
    rw [Draft.HasCaptured, Draft.HasCaptured, hmem, hc.remains.enclosing]
    rw [show (s.at d).frame.enclosing = s.frame.enclosing from hr.remains.enclosing]
  refine ⟨_, Draft.resolve_of_live hlive huse, ?_, fun h => ?_⟩
  · rw [← hsame, ← Draft.captures_of_live hlive]
    split <;> simp_all
  · rw [h.resolve huse, if_pos ((Draft.captures_of_live hlive).2 (hsame.2 h))]
    obtain ⟨later, hlater⟩ := Draft.Leads.captured_prefix hc.leads
    rw [← hlater, List.idxOf_append_of_mem (hcaptured ▸ h.1)]
    rw [show (s.at d).frame.captured = s.frame.captured from hcaptured]

/-- A closure that begins by reading `n`, a local of the frame around. -/
def readsOuter : Draft :=
  { Draft.start .latestCommon none with
    isRoot := false
    enclosing := some [⟨0, "n", false⟩]
    captured := [⟨0, "n", false⟩]
    slots := ((Slots.empty .latestCommon).addLocal (some ⟨0, "n", false⟩)).2
    scopes := [{ kind := .block }] }

/-- A declaration of `n` after that read gives slot 1, and the next read does not get it. -/
theorem readsOuter_not_shadowed : ∃ outer, (do
      Draft.pushScope .block
      Draft.resolve ⟨0, "n", false⟩ .declare) (Draft.start .latestCommon none) = .ok (1, outer) ∧
    (do
      Draft.pushScope .block
      Draft.resolve ⟨0, "n", false⟩ .read) (outer.child .latestCommon true) = .ok (-1, readsOuter) ∧
    Draft.resolve ⟨0, "n", false⟩ .declare readsOuter = .ok (1, readsOuter) ∧
    ∃ i, Draft.resolve ⟨0, "n", false⟩ .read readsOuter = .ok (i, readsOuter) ∧ i ≠ 1 := by
  refine ⟨_, rfl, rfl, rfl, ?_⟩
  have hcaptured : readsOuter.HasCaptured ⟨0, "n", false⟩ := ⟨by decide, _, rfl, by decide⟩
  obtain ⟨i, hread, hshadows, -⟩ := @declaration_shadows_iff {} noSources 0 []
    ((Session.start {} "main").at readsOuter) _ ⟨0, "n", false⟩ _ _ .read rfl rfl (.inl rfl)
  exact ⟨i, hread, fun hi => hshadows.1 hi hcaptured⟩

end Adhoc
