import Adhoc.Proofs.Placement

namespace Adhoc

open Emit List Draft Scope

variable {jumps : List (Option Nat)} {folder label : Option String} {c : Scope} {x d : Nat}
  {line : UInt32} {quiet : Prop} {v : Version}

/-- No `continue` is noted in the innermost scope. -/
def Session.NoContinues (s : Session) : Prop :=
  ∀ c rest, s.frame.scopes = c :: rest → c.continues = []

section

variable {held ks : List Nat} {s r t u : Session} {lay : List Instruction → List (Nat × Nat) → Prop}

theorem Placed.noContinues (h : Placed quiet held lay s t) (hq : quiet) (hs : s.NoContinues) :
    t.NoContinues := by
  intro c rest hc
  have hmarks := h.grows.marks
  cases hscopes : s.frame.scopes with
  | nil => simp [sketch, marks, hscopes, hc] at hmarks
  | cons c0 rest0 =>
    simp only [sketch, marks, hscopes, hc, map_cons, forall₂_cons] at hmarks
    have hnew := hmarks.1.newContinues
    simp only [mark, hs c0 rest0 hscopes] at hnew
    exact eq_nil_iff_forall_not_mem.2 fun k hk => by simpa [hq] using hnew k hk

theorem noContinues_of_take (h1 : takeContinues t = .ok (ks, r))
    (h2 : patchAll ks x r = .ok ((), u)) : u.NoContinues := by
  obtain ⟨c, rest, -, -, rfl⟩ := takeContinues_ok.1 h1
  rw [patchAll_ok h2]
  intro c' rest' hc'
  cases hc'
  rfl

theorem turn_size (h1 : takeContinues t = .ok (ks, r)) (h2 : patchAll ks x r = .ok ((), u)) :
    u.frame.code.size = t.frame.code.size := by
  obtain ⟨c, rest, -, -, rfl⟩ := takeContinues_ok.1 h1
  rw [patchAll_ok h2]
  simp [sketch]

theorem NoContinues.of_scopes (hs : s.NoContinues) (h : t.frame.scopes = s.frame.scopes) :
    t.NoContinues := fun c rest hc => hs c rest (h ▸ hc)

end

section

variable {s t : Session}

theorem jumpTo_placed (quiet : Prop) (hs : Ready folder s) (hx : x ≤ s.frame.code.size)
    (h : jumpTo v x line s = .ok ((), t)) :
    Placed quiet [] (fun code _ =>
      code[s.frame.code.size]? = some ⟨line, .jump .always (some x)⟩) s t ∧
    t.frame.code.size = s.frame.code.size + 1 ∧ t.frame.scopes = s.frame.scopes := by
  obtain ⟨k, h⟩ := discard_ok.1 h
  have hfits : Instruction.Fits (s.frame.code.size + 1) ⟨line, .jump .always (some x)⟩ := by
    refine ⟨fun kind t ht => ?_, fun f hf => nomatch hf⟩
    cases ht
    omega
  refine ⟨.add hs hfits (by rintro ⟨kind, hk⟩; cases hk) h, ?_⟩
  obtain ⟨moves, he, -, rfl⟩ := add_ok.1 h
  cases he
  exact ⟨by simp, rfl⟩

end

theorem nodup_map_getD (h : jumps.Nodup) (hd : some d ∉ jumps) : (jumps.map (·.getD d)).Nodup := by
  refine h.map_on fun j hj j' hj' he => ?_
  rcases j with _ | j <;> rcases j' with _ | j'
  · rfl
  · exact absurd (show d = j' from he) fun he => hd (he ▸ hj')
  · exact absurd (show j = d from he) fun he => hd (he ▸ hj)
  · exact congrArg some he

theorem mem_map_getD (hd : some d ∉ jumps) : d ∈ jumps.map (·.getD d) ↔ none ∈ jumps := by
  refine ⟨fun h => ?_, fun h => mem_map.2 ⟨none, h, rfl⟩⟩
  obtain ⟨j, hj, he⟩ := mem_map.1 h
  cases j with
  | none => exact hj
  | some j => exact absurd ((show j = d from he) ▸ hj) hd

theorem mem_unaimed {k : Nat} (hd : some d ∉ jumps) :
    k ∈ (jumps.filterMap id ++ [d]).filter (· ∉ jumps.map (·.getD d)) ↔ k = d ∧ none ∉ jumps := by
  rw [mem_filter, decide_eq_true_eq, ← mem_map_getD hd]
  constructor
  · rintro ⟨hk, hn⟩
    rcases mem_append.1 hk with hk | hk
    · exact absurd (mem_map.2 ⟨some k, by simpa using hk, rfl⟩) hn
    · obtain rfl := mem_singleton.1 hk
      exact ⟨rfl, hn⟩
  · rintro ⟨rfl, hn⟩
    exact ⟨by simp, hn⟩

theorem Draft.updateFirst_eq_some {α : Type} {p : Scope → Bool} {f : Scope → α × Scope}
    {scopes : List Scope} (h : scopes.any p = true) :
    ∃ before c after, scopes = before ++ c :: after ∧ (∀ b ∈ before, p b = false) ∧ p c = true ∧
      updateFirst p f scopes = some ((f c).1, before ++ (f c).2 :: after) := by
  induction scopes with
  | nil => simp at h
  | cons c rest ih =>
    cases hc : p c with
    | true => exact ⟨[], c, rest, rfl, by simp, hc, by simp [updateFirst, hc]⟩
    | false =>
      obtain ⟨before, c', after, rfl, hb, hc', hu⟩ := ih (by simpa [hc] using h)
      refine ⟨c :: before, c', after, rfl, ?_, hc', by simp [updateFirst, hc, hu]⟩
      simpa [hc] using hb

theorem Draft.takesBreak_of_leftBy (h : leftBy label c = true) : c.kind.takesBreak = true := by
  cases label with
  | none => exact h
  | some l => cases hk : c.kind <;> simp_all [leftBy, ScopeKind.label?, ScopeKind.takesBreak]

theorem Draft.isLoop_of_continuedBy (h : continuedBy label c = true) : c.kind.isLoop = true := by
  cases label with
  | none => exact h
  | some l => cases hk : c.kind <;> simp_all [continuedBy, ScopeKind.label?, ScopeKind.isLoop]

section

variable {s t : Session} {loc : Loc} {before after : List Scope}

theorem noted_placed (c' : Scope) (hs : Ready folder s) (hscopes : s.frame.scopes = before ++ c :: after)
    (hcode : t.frame.code = s.frame.code.push ⟨line, .jump .always none⟩)
    (hscopes' : t.frame.scopes = before ++ c' :: after) (hkeeps : s.frame.Keeps t.frame)
    (hfolder : t.includeFolder = s.includeFolder)
    (hg : c.mark.Grows quiet s.frame.code.size c'.mark)
    (hn : c'.mark.notes.Perm (s.frame.code.size :: c.mark.notes))
    (hb : c.kind.takesBreak = false → c'.breaks = [])
    (hc : c.kind.isLoop = false → c'.continues = []) :
    Placed quiet [] (fun code targets => ∀ ts x rest, targets = ts ++ x :: rest →
      ts.length = before.length →
      (s.frame.code.size ∈ c'.breaks →
        code[s.frame.code.size]? = some ⟨line, .jump .always (some x.1)⟩) ∧
      (s.frame.code.size ∈ c'.continues →
        code[s.frame.code.size]? = some ⟨line, .jump .always (some x.2)⟩)) s t := by
  have hmarks : s.frame.sketch.marks =
      before.map mark ++ c.mark :: after.map mark := by
    simp [sketch, marks, hscopes]
  have ht : t.frame.sketch = ⟨s.frame.sketch.code.push ⟨line, .jump .always none⟩,
      before.map mark ++ c'.mark :: after.map mark⟩ := by
    simp [sketch, marks, hcode, hscopes']
  refine ⟨ht ▸ .note hs.tidy hmarks hg hn hb hc, hkeeps, fun f hf => hfolder ▸ hf, ?_⟩
  rintro code _ - ha ts x rest rfl hlength
  rw [ht] at ha
  have hzip : (c'.mark, x) ∈ (before.map mark ++ c'.mark :: after.map mark).zip
      (ts ++ x :: rest) := by
    rw [zip_append (by simp [hlength])]
    simp
  refine ⟨fun hk => ?_, fun hk => ?_⟩
  · simpa [sketch] using ha.breaks _ _ hzip _ hk
  · simpa [sketch] using ha.continues _ _ hzip _ hk

/-- The targets of the open scopes, around that of one scope. -/
theorem targets_split {targets : List (Nat × Nat)}
    (hscopes : s.frame.scopes = before ++ c :: after)
    (hlength : targets.length = s.frame.marks.length) :
    ∃ ts x rest, targets = ts ++ x :: rest ∧ ts.length = before.length := by
  have hlt : before.length < targets.length := by
    rw [hlength, marks, length_map, hscopes]
    simp
  exact ⟨targets.take before.length, targets[before.length], targets.drop (before.length + 1),
    by simp, by simp; omega⟩

/-- The jump from `s` to `t` is made to the innermost scope that catches it. -/
def Escapes (quiet : Prop) (catches : Scope → Bool) (line : UInt32) (target : Nat × Nat → Nat)
    (s t : Session) : Prop :=
  ∃ before c after, s.frame.scopes = before ++ c :: after ∧ (∀ b ∈ before, catches b = false) ∧
    catches c = true ∧ t.frame.code.size = s.frame.code.size + 1 ∧
    Placed quiet [] (fun code targets => ∀ ts x rest, targets = ts ++ x :: rest →
      ts.length = before.length →
      code[s.frame.code.size]? = some ⟨line, .jump .always (some (target x))⟩) s t

theorem breakOut_placed (hs : Ready folder s) (h : breakOut v loc label s = .ok ((), t)) :
    Escapes quiet (leftBy label) 0 Prod.fst s t := by
  simp only [breakOut, bind_ok, frame_ok, require_ok] at h
  obtain ⟨_, s, ⟨rfl, rfl⟩, _, s, ⟨hcan, rfl⟩, k, r, h1, h2⟩ := h
  obtain ⟨moves, he, rfl, rfl⟩ := add_ok.1 h1
  cases he
  obtain ⟨before, c, after, hscopes, hbefore, hleft, hupdate⟩ :=
    updateFirst_eq_some (f := (·.addBreak s.frame.code.size)) hcan
  obtain ⟨_, h2⟩ := discard_ok.1 h2
  obtain ⟨d, hd, rfl⟩ := onFrame_ok.1 h2
  simp only [noteBreak, hupdate, Except.ok.injEq, Prod.mk.injEq] at hd
  obtain ⟨-, rfl⟩ := hd
  have hkind := takesBreak_of_leftBy hleft
  refine ⟨before, c, after, hscopes, hbefore, hleft, by simp, ?_⟩
  refine Placed.mono (noted_placed { c with breaks := c.breaks ++ [s.frame.code.size] } hs hscopes
    rfl (by simp [addBreak, hkind]) ⟨rfl, rfl, fun _ => rfl⟩ rfl ?_ ?_ ?_ ?_) id (fun _ => .rfl)
    fun code targets hl ts x rest ht hlen => (hl ts x rest ht hlen).1 (by simp)
  · exact .addBreak _
  · simp only [Mark.notes, mark, append_assoc]
    exact perm_middle
  · simp [hkind]
  · intro hloop
    exact hs.tidy.continues c.mark (by simp [sketch, marks, hscopes]) hloop

theorem continueLoop_placed (hq : ¬ quiet) (hs : Ready folder s)
    (h : continueLoop v loc label s = .ok ((), t)) :
    Escapes quiet (continuedBy label) loc.line Prod.snd s t := by
  simp only [continueLoop, bind_ok, frame_ok, require_ok] at h
  obtain ⟨_, s, ⟨rfl, rfl⟩, _, s, ⟨hcan, rfl⟩, k, r, h1, h2⟩ := h
  obtain ⟨moves, he, rfl, rfl⟩ := add_ok.1 h1
  cases he
  obtain ⟨before, c, after, hscopes, hbefore, hleft, hupdate⟩ :=
    updateFirst_eq_some (f := (·.addContinue s.frame.code.size)) hcan
  obtain ⟨_, h2⟩ := discard_ok.1 h2
  obtain ⟨d, hd, rfl⟩ := onFrame_ok.1 h2
  simp only [noteContinue, hupdate, Except.ok.injEq, Prod.mk.injEq] at hd
  obtain ⟨-, rfl⟩ := hd
  have hkind := isLoop_of_continuedBy hleft
  refine ⟨before, c, after, hscopes, hbefore, hleft, by simp, ?_⟩
  refine Placed.mono (noted_placed { c with continues := c.continues ++ [s.frame.code.size] } hs hscopes
    rfl (by simp [addContinue, hkind]) ⟨rfl, rfl, fun _ => rfl⟩ rfl ?_ ?_ ?_ ?_) id (fun _ => .rfl)
    fun code targets hl ts x rest ht hlen => (hl ts x rest ht hlen).2 (by simp)
  · exact .addContinue hq _
  · simp only [Mark.notes, mark, ← append_assoc]
    exact perm_append_singleton _ _
  · intro hbreak
    exact hs.tidy.breaks c.mark (by simp [sketch, marks, hscopes]) hbreak
  · simp [hkind]

end

end Adhoc
