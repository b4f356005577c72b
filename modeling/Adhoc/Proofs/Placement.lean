import Adhoc.Proofs.Growth
import Adhoc.Proofs.Layout

namespace Adhoc

open Emit List Instruction Sketch Draft Operation Scope

variable {kind : ScopeKind} {ks held : List Nat} {v : Version} {line : UInt32} {k x n target : Nat}
  {lay : List Instruction → List (Nat × Nat) → Prop} {u : Unit} {folder : Option String} {c : Scope}
  {quiet : Prop} {code : List Instruction} {s t r : Session} {leaves : Bool}

/-- The second session is the first with one more scope, in which no jump is noted. -/
structure Opens (kind : ScopeKind) (s r : Session) : Prop where
  code : r.frame.code = s.frame.code
  marks : r.frame.marks = ⟨kind, [], []⟩ :: s.frame.marks
  depth : r.frame.depth = s.frame.depth
  keeps : s.frame.Keeps r.frame
  folder : r.includeFolder = s.includeFolder

namespace Emit

theorem patch_ok (h : patch k target s = .ok (u, t)) :
    t = { s with frame := { s.frame with code := (s.frame.sketch.aim [k] target).code } } := by
  obtain ⟨d, hd, rfl⟩ := onFrame_ok.1 h
  unfold Draft.patch at hd
  cases hk : s.frame.code[k]? with
  | none => simp [hk] at hd
  | some ins =>
    obtain ⟨line, op⟩ := ins
    cases op
    case jump kind old =>
      simp only [hk, withTarget?, Except.ok.injEq, Prod.mk.injEq, true_and] at hd
      subst hd
      have hlt := (Array.getElem?_eq_some_iff.1 hk).1
      congr 2
      apply Array.ext'
      refine ext_getElem? fun i => ?_
      by_cases hi : k = i
      · subst hi
        have hget : s.frame.code[k] = ⟨line, .jump kind old⟩ := by simpa [hlt] using hk
        simp [Sketch.aim, Draft.sketch, hlt, hget]
      · have hi' : ¬ i = k := fun h => hi h.symm
        simp [Sketch.aim, Draft.sketch, hi, hi']
    all_goals simp [hk, Operation.withTarget?] at hd

theorem patchAll_ok (h : patchAll ks target s = .ok (u, t)) :
    t = { s with frame := { s.frame with code := (s.frame.sketch.aim ks target).code } } := by
  induction ks generalizing s with
  | nil =>
    obtain ⟨-, rfl⟩ := pure_ok.1 h
    simp [aim_nil, sketch]
  | cons k ks ih =>
    obtain ⟨_, r, h1, h2⟩ := bind_ok.1 h
    rw [ih h2, patch_ok h1]
    simp only [Draft.sketch, Draft.marks]
    congr 2
    exact congrArg Sketch.code (aim_cons _ k target ks)

theorem patchHere_ok (h : patchHere k s = .ok (u, t)) :
    patchAll [k] s.frame.code.size s = .ok ((), t) := by
  obtain ⟨n, r, h1, h2⟩ := bind_ok.1 h
  obtain ⟨rfl, rfl⟩ := here_ok.1 h1
  exact bind_ok.2 ⟨u, t, h2, rfl⟩

theorem jump_ok {kind : Jump} (h : jump v kind line s = .ok (k, t)) :
    k = s.frame.code.size ∧ t.frame.code.size = s.frame.code.size + 1 := by
  obtain ⟨moves, -, rfl, rfl⟩ := add_ok.1 h
  simp

theorem pushScope_ok :
    pushScope kind s = .ok (u, t) ↔
      t = { s with frame := { s.frame with scopes := { kind := kind } :: s.frame.scopes } } := by
  simp [pushScope, onFrame_ok, Draft.pushScope]

theorem pushScope_opens (h : pushScope kind s = .ok (u, t)) : Opens kind s t := by
  rw [pushScope_ok.1 h]
  exact ⟨rfl, rfl, rfl, ⟨rfl, rfl, fun _ => rfl⟩, rfl⟩

theorem popScope_ok :
    onFrame popScope s = .ok (c, t) ↔ ∃ rest, s.frame.scopes = c :: rest ∧
      t = { s with frame := { s.frame with scopes := rest } } := by
  rw [onFrame_ok]
  unfold popScope
  split <;> simp_all

theorem takeBreaks_ok :
    takeBreaks s = .ok (ks, t) ↔ ∃ c rest, s.frame.scopes = c :: rest ∧ ks = c.breaks ∧
      t = { s with frame := { s.frame with scopes := { c with breaks := [] } :: rest } } := by
  rw [takeBreaks, onFrame_ok]
  unfold Draft.updateScope
  split <;> simp_all [Scope.takeBreaks]
  grind

theorem takeContinues_ok :
    takeContinues s = .ok (ks, t) ↔ ∃ c rest, s.frame.scopes = c :: rest ∧ ks = c.continues ∧
      t = { s with frame := { s.frame with scopes := { c with continues := [] } :: rest } } := by
  rw [takeContinues, onFrame_ok]
  unfold Draft.updateScope
  split <;> simp_all [Scope.takeContinues]
  grind

theorem freeAll_neutral (free : Slots → Symbol → Slots) (symbols : List Symbol) :
    Neutral (freeAll free symbols) :=
  .change fun _ => ⟨⟨⟨rfl, rfl, rfl, rfl, rfl, fun _ => rfl⟩, fun _ hf => hf⟩, rfl, rfl⟩

theorem leaveScope_ok (h : leaveScope v leaves s = .ok (u, t)) :
    ∃ c r1 r2, onFrame popScope s = .ok (c, r1) ∧ Still r1 r2 ∧
      if leaves && v.has .leave then
        emit v (.leave 0 r2.frame.slots.rewindIndex) 0 r2 = .ok ((), t)
      else t = r2 := by
  obtain ⟨c, r1, h1, h⟩ := bind_ok.1 h
  have hlast : ∀ {r2}, markLeave v leaves r2 = .ok (u, t) →
      if leaves && v.has .leave then
        emit v (.leave 0 r2.frame.slots.rewindIndex) 0 r2 = .ok ((), t)
      else t = r2 := by
    intro r2 h2
    split <;> rename_i hl <;> unfold markLeave at h2
    · simp only [hl, if_true, bind_ok, frame_ok] at h2
      obtain ⟨f, r, ⟨rfl, rfl⟩, h2⟩ := h2
      exact h2
    · simp only [hl, Bool.false_eq_true, if_false, pure_ok, true_and] at h2
      exact h2
  split at h
  · obtain ⟨_, r2, h2, h3⟩ := bind_ok.1 h
    exact ⟨c, r1, r2, h1, (freeAll_neutral _ _ h2).still, hlast h3⟩
  · exact ⟨c, r1, r1, h1, .refl _, hlast h⟩

end Emit

/-- The code of a sketch is final, apart from jumps that wait for a target; those that are noted in
the scopes have the given targets in the end, of `break` and of `continue`. -/
structure Agrees (code : List Instruction) (targets : List (Nat × Nat)) (g : Sketch) : Prop where
  closed : ∀ k ins, k ∉ g.notes → g.code[k]? = some ins → ¬ ins.isOpen → code[k]? = some ins
  breaks : ∀ m t, (m, t) ∈ g.marks.zip targets → ∀ k ∈ m.breaks,
    code[k]? = (g.code[k]?).map (·.aim t.1)
  continues : ∀ m t, (m, t) ∈ g.marks.zip targets → ∀ k ∈ m.continues,
    code[k]? = (g.code[k]?).map (·.aim t.2)

namespace Agrees

variable {g g' : Sketch} {targets : List (Nat × Nat)} {t : Nat × Nat} {m : Mark} {ms : List Mark}

theorem zip_of_grows {ms' : List Mark} (h : Forall₂ (Mark.Grows quiet n) ms ms')
    (hm : (m, t) ∈ ms.zip targets) : ∃ m', (m', t) ∈ ms'.zip targets ∧ m.Grows quiet n m' := by
  induction h generalizing targets with
  | nil => simp at hm
  | cons hmm _ ih =>
    cases targets with
    | nil => simp at hm
    | cons t' targets =>
      rcases mem_cons.1 hm with hm | hm
      · cases hm
        exact ⟨_, mem_cons_self, hmm⟩
      · obtain ⟨m', hm', hg⟩ := ih hm
        exact ⟨m', mem_cons_of_mem _ hm', hg⟩

theorem noted (hm : (m, t) ∈ g.marks.zip targets) (hk : k ∈ m.notes) : k ∈ g.notes :=
  mem_flatMap.2 ⟨m, (of_mem_zip hm).1, hk⟩

theorem of_grows (h : Agrees code targets g') (hg : g.Grows quiet held g') (ht : g.Tidy) :
    Agrees code targets g where
  closed k ins hn hi ho := by
    have hlt := (Array.getElem?_eq_some_iff.1 hi).1
    exact h.closed k ins (hg.unnoted hn hlt) ((hg.old k hlt).trans hi) ho
  breaks m t hm k hk := by
    have hn : k ∈ m.notes := mem_append_left _ hk
    obtain ⟨m', hm', hmm⟩ := zip_of_grows hg.marks hm
    rw [h.breaks m' t hm' k (hmm.breaks k hk), hg.old k (ht.lt (noted hm hn))]
  continues m t hm k hk := by
    have hn : k ∈ m.notes := mem_append_right _ hk
    obtain ⟨m', hm', hmm⟩ := zip_of_grows hg.marks hm
    rw [h.continues m' t hm' k (hmm.continues k hk), hg.old k (ht.lt (noted hm hn))]

theorem of_aim (h : Agrees code targets (g.aim ks x)) (hks : ∀ k ∈ ks, g.Held n k) :
    Agrees code targets g where
  closed k ins hn hi ho := by
    have hk : k ∉ ks := by
      intro hk
      obtain ⟨ins', hi', ho'⟩ := (hks k hk).isOpen
      rw [hi] at hi'
      cases hi'
      exact ho ho'
    exact h.closed k ins hn ((aim_get_of_not_mem hk).trans hi) ho
  breaks m t hm k hk := by
    have hn : k ∉ ks := fun hm' =>
      (hks k hm').unnoted (noted hm (mem_append_left _ hk))
    rw [h.breaks m t hm k hk, aim_get_of_not_mem hn]
  continues m t hm k hk := by
    have hn : k ∉ ks := fun hm' =>
      (hks k hm').unnoted (noted hm (mem_append_right _ hk))
    rw [h.continues m t hm k hk, aim_get_of_not_mem hn]

theorem aimed (h : Agrees code targets (g.aim ks x)) (hks : ∀ k ∈ ks, g.Held n k) (hk : k ∈ ks) :
    code[k]? = (g.code[k]?).map (·.aim x) := by
  obtain ⟨ins, hi, -⟩ := (hks k hk).isOpen
  rw [hi]
  refine h.closed k _ (hks k hk).unnoted ?_ (not_isOpen_aim x ins)
  simp [aim_get, hi, hk]

theorem of_take {m' : Mark} (h : Agrees code (t :: targets) (aim ⟨g.code, m' :: ms⟩ ks x))
    (hks : ∀ k ∈ ks, Held ⟨g.code, m' :: ms⟩ n k) (hg : g.marks = m :: ms)
    (hb : ∀ k ∈ m.breaks, k ∈ m'.breaks ∨ k ∈ ks ∧ x = t.1)
    (hc : ∀ k ∈ m.continues, k ∈ m'.continues ∨ k ∈ ks ∧ x = t.2)
    (hn : ∀ k ∈ m'.notes, k ∈ m.notes) : Agrees code (t :: targets) g := by
  have hbefore := h.of_aim hks
  have hsame : ∀ m'' t', (m'', t') ∈ g.marks.zip (t :: targets) →
      (m'' = m ∧ t' = t) ∨ (m'', t') ∈ ms.zip targets := by
    intro m'' t' hm''
    rw [hg, zip_cons_cons, mem_cons, Prod.mk.injEq] at hm''
    exact hm''
  refine ⟨fun k ins hk hi ho => ?_, fun m'' t' hm'' k hk => ?_, fun m'' t' hm'' k hk => ?_⟩
  · refine hbefore.closed k ins (fun hk' => hk ?_) hi ho
    simp only [notes, hg, flatMap_cons, mem_append] at hk' ⊢
    exact hk'.imp_left (hn k)
  · rcases hsame m'' t' hm'' with ⟨rfl, rfl⟩ | hm''
    · rcases hb k hk with hk | ⟨hk, rfl⟩
      · exact hbefore.breaks m' t' (by simp) k hk
      · exact h.aimed hks hk
    · exact hbefore.breaks m'' t' (by simp [hm'']) k hk
  · rcases hsame m'' t' hm'' with ⟨rfl, rfl⟩ | hm''
    · rcases hc k hk with hk | ⟨hk, rfl⟩
      · exact hbefore.continues m' t' (by simp) k hk
      · exact h.aimed hks hk
    · exact hbefore.continues m'' t' (by simp [hm'']) k hk

theorem of_leave (h : Agrees code targets ⟨g.code, ms⟩) (hg : g.marks = m :: ms) (hm : m.notes = [])
    (t : Nat × Nat) : Agrees code (t :: targets) g := by
  obtain ⟨hb, hc⟩ := append_eq_nil_iff.1 hm
  refine ⟨fun k ins hk hi ho => h.closed k ins ?_ hi ho, fun m' t' hm' k hk => ?_,
    fun m' t' hm' k hk => ?_⟩
  · simpa [notes, hg, hm] using hk
  all_goals
    rw [hg, zip_cons_cons, mem_cons, Prod.mk.injEq] at hm'
    rcases hm' with ⟨rfl, rfl⟩ | hm'
  · simp [hb] at hk
  · exact h.breaks m' t' hm' k hk
  · simp [hc] at hk
  · exact h.continues m' t' hm' k hk

theorem refl {code : Array Instruction} (hg : g.code = code) (hn : g.notes = []) :
    Agrees code.toList targets g where
  closed k ins _ hi _ := by simpa [hg] using hi
  breaks m t hm k hk := by
    have := noted hm (mem_append_left _ hk)
    simp [hn] at this
  continues m t hm k hk := by
    have := noted hm (mem_append_right _ hk)
    simp [hn] at this

end Agrees

/-- From `s` to `t` code was appended, and `lay` holds of the finished code and the targets of the
scopes that are open in `s`. The jumps in `held` still wait for their target. -/
structure Placed (quiet : Prop) (held : List Nat)
    (lay : List Instruction → List (Nat × Nat) → Prop) (s t : Session) : Prop where
  grows : s.frame.sketch.Grows quiet held t.frame.sketch
  keeps : s.frame.Keeps t.frame
  folder : ∀ f, s.includeFolder = some f → t.includeFolder = some f
  laid : ∀ code targets, targets.length = s.frame.marks.length →
    Agrees code targets t.frame.sketch → lay code targets

/-- A session that code can be appended to, in which the folder of includes is settled if it is
given. -/
structure Ready (folder : Option String) (s : Session) : Prop where
  tidy : s.frame.sketch.Tidy
  folder : ∀ f, folder = some f → s.includeFolder = some f

theorem Opens.sketch (h : Opens kind s r) :
    r.frame.sketch = { s.frame.sketch with marks := ⟨kind, [], []⟩ :: s.frame.sketch.marks } := by
  simp [Draft.sketch, h.code, h.marks]

theorem Opens.ready (h : Opens kind s r) (hs : Ready folder s) : Ready folder r :=
  ⟨h.sketch ▸ hs.tidy.enter kind, h.folder ▸ hs.folder⟩

namespace Placed

variable {held' : List Nat} {u t' : Session} {lay' : List Instruction → List (Nat × Nat) → Prop}
  {rest : List Scope} {op : Operation}

theorem ready (h : Placed quiet held lay s t) (hs : Ready folder s) : Ready folder t :=
  ⟨h.grows.tidy, fun f hf => h.folder f (hs.folder f hf)⟩

theorem size_le (h : Placed quiet held lay s t) : s.frame.code.size ≤ t.frame.code.size :=
  h.grows.size

theorem marks_length (h : Placed quiet held lay s t) :
    s.frame.marks.length = t.frame.marks.length := h.grows.marks.length_eq

theorem mono {quiet' : Prop} (h : Placed quiet held lay s t) (hq : quiet' → quiet)
    (hh : ∀ k, k ∈ held ↔ k ∈ held') (hl : ∀ code targets, lay code targets → lay' code targets) :
    Placed quiet' held' lay' s t :=
  ⟨h.grows.mono hq hh, h.keeps, h.folder, fun code targets ht ha => hl _ _ (h.laid code targets ht ha)⟩

theorem settle (h : Placed quiet held lay s t) (hh : ∀ k, k ∉ held) : Placed quiet [] lay s t :=
  h.mono id (fun k => by simp [hh k]) fun _ _ hl => hl

theorem trans (h : Placed quiet held lay s r) (h' : Placed quiet held' lay' r t) :
    Placed quiet (held ++ held') (fun code targets => lay code targets ∧ lay' code targets) s t where
  grows := h.grows.trans h'.grows
  keeps := h.keeps.trans h'.keeps
  folder f hf := h'.folder f (h.folder f hf)
  laid code targets ht ha :=
    ⟨h.laid code targets ht (ha.of_grows h'.grows h.grows.tidy),
      h'.laid code targets (ht.trans h.marks_length) ha⟩

theorem still (hs : Ready folder s) (h : Still s t) :
    Placed quiet [] (fun _ _ => True) s t := by
  have hsketch : t.frame.sketch = s.frame.sketch := by simp [sketch, h.code, h.marks]
  refine ⟨?_, h.keeps, h.folder, fun _ _ _ _ => trivial⟩
  rw [hsketch]
  exact .refl hs.tidy

theorem append (ins : Instruction) (hs : Ready folder s) (hf : ins.Fits (s.frame.code.size + 1))
    (ho : ins.isOpen → held = [s.frame.code.size]) (hc : ¬ ins.isOpen → held = [])
    (ht : t.frame.sketch = s.frame.sketch.push ins) (hkeeps : s.frame.Keeps t.frame)
    (hfolder : ∀ f, s.includeFolder = some f → t.includeFolder = some f) :
    Placed quiet held (fun code _ => ¬ ins.isOpen → code[s.frame.code.size]? = some ins) s t where
  grows := ht ▸ .push hs.tidy hf ho hc
  keeps := hkeeps
  folder := hfolder
  laid code targets _ ha hi := by
    rw [ht] at ha
    refine ha.closed _ ins (fun hn => ?_) (by rw [push_get]; exact if_pos rfl) hi
    exact Nat.lt_irrefl _ (hs.tidy.lt hn)

theorem add (hs : Ready folder s) (hf : Fits (s.frame.code.size + 1) ⟨line, op⟩)
    (hc : ¬ isOpen ⟨line, op⟩) (h : add v op line s = .ok (k, t)) :
    Placed quiet [] (fun code _ => code[s.frame.code.size]? = some ⟨line, op⟩) s t := by
  obtain ⟨moves, -, -, rfl⟩ := add_ok.1 h
  exact Placed.mono (append ⟨line, op⟩ hs hf (fun ho => absurd ho hc) (fun _ => rfl) rfl
    ⟨rfl, rfl, fun _ => rfl⟩ fun _ hf => hf) id (fun _ => .rfl) fun code targets hl => hl hc

theorem emit (hs : Ready folder s) (ht : op.target? = none) (hf : op.frames = [])
    (h : emit v op line s = .ok ((), t)) :
    Placed quiet [] (fun code _ => code[s.frame.code.size]? = some ⟨line, op⟩) s t := by
  obtain ⟨k, h⟩ := discard_ok.1 h
  exact add hs (.plain ht hf _) (not_isOpen_of_target ht) h

theorem plain (is : List Instruction) (hs : Ready folder s)
    (his : ∀ i ∈ is, i.operation.target? = none ∧ i.operation.frames = [])
    (hcode : t.frame.code = s.frame.code ++ is) (hmarks : t.frame.marks = s.frame.marks)
    (hkeeps : s.frame.Keeps t.frame)
    (hfolder : ∀ f, s.includeFolder = some f → t.includeFolder = some f) :
    Placed quiet [] (fun code _ => ∀ k < is.length, code[s.frame.code.size + k]? = is[k]?) s t := by
  have ht : t.frame.sketch = ⟨s.frame.sketch.code ++ is, s.frame.sketch.marks⟩ := by
    simp [sketch, hcode, hmarks]
  refine ⟨ht ▸ .plain hs.tidy his, hkeeps, hfolder, fun code targets _ ha k hk => ?_⟩
  rw [ht] at ha
  rw [getElem?_eq_getElem hk]
  refine ha.closed _ _ (fun hn => ?_) ?_ (not_isOpen_of_target (his _ (by simp)).1)
  · have hlt : s.frame.code.size + k < s.frame.code.size := hs.tidy.lt hn
    omega
  · rw [← Array.getElem?_toList]
    simp [sketch, hk]

theorem jump {kind : Jump} (hs : Ready folder s) (h : jump v kind line s = .ok (k, t)) :
    Placed quiet [k] (fun _ _ => True) s t := by
  obtain ⟨moves, -, rfl, rfl⟩ := add_ok.1 h
  have hfits : Fits (s.frame.code.size + 1) ⟨line, .jump kind none⟩ :=
    ⟨by simp, fun f hf => nomatch hf⟩
  exact Placed.mono (append _ hs hfits (fun _ => rfl) (fun ho => absurd ⟨kind, rfl⟩ ho) rfl
    ⟨rfl, rfl, fun _ => rfl⟩ fun _ hf => hf) id (fun _ => .rfl) fun _ _ _ => trivial

theorem ready_jump {kind : Jump} (hs : Ready folder s) (h : Emit.jump v kind line s = .ok (k, t)) :
    Ready folder t := by
  have hplaced : Placed True [k] _ s t := jump hs h
  exact hplaced.ready hs

theorem aim (h : Placed quiet held lay s t) (hks : ∀ k ∈ ks, k ∈ held) (hx : x ≤ t.frame.code.size)
    (hr : patchAll ks x t = .ok ((), u)) :
    Placed quiet (held.filter (· ∉ ks)) (fun code targets => lay code targets ∧
      ∀ k ∈ ks, code[k]? = (t.frame.code[k]?).map (·.aim x)) s u := by
  obtain rfl := patchAll_ok hr
  have hheld := fun k hk => h.grows.held k (hks k hk)
  refine ⟨h.grows.aim hks hx, ⟨h.keeps.parameters, h.keeps.enclosing, h.keeps.captured⟩, h.folder,
    fun code targets ht ha => ⟨?_, fun k hk => ?_⟩⟩
  · exact h.laid code targets ht (ha.of_aim hheld)
  · exact ha.aimed hheld hk

/-- The innermost scope hands the jumps `ks` over, which are aimed at `x`. What was shown holds if
`x` is the target of these jumps. -/
theorem handOver (c' : Scope) {fits : Nat × Nat → Prop} (ho : Opens kind s r)
    (h : Placed quiet held lay r t) (hc : t.frame.scopes = c :: rest)
    (hks : c.mark.notes.Perm (ks ++ c'.mark.notes)) (hkind : c'.kind = c.kind)
    (hbreaks : ∀ k ∈ c'.breaks, k ∈ c.breaks) (hcontinues : ∀ k ∈ c'.continues, k ∈ c.continues)
    (hx : x ≤ t.frame.code.size)
    (hb : ∀ k ∈ c.breaks, k ∈ c'.breaks ∨ k ∈ ks ∧ ∀ t, fits t → x = t.1)
    (hn : ∀ k ∈ c.continues, k ∈ c'.continues ∨ k ∈ ks ∧ ∀ t, fits t → x = t.2)
    (hr : patchAll ks x { t with frame := { t.frame with scopes := c' :: rest } } =
      .ok ((), u)) :
    Placed quiet held (fun code targets => ∀ t ts, targets = t :: ts → fits t → lay code targets)
      r u := by
  obtain rfl := patchAll_ok hr
  have hmarks : t.frame.sketch.marks = c.mark :: rest.map Scope.mark := by
    simp [Draft.sketch, Draft.marks, hc]
  have htaken := h.grows.take ho.marks hmarks hks hkind hbreaks hcontinues
  have hheld : ∀ k ∈ ks, Sketch.Held ⟨t.frame.code, c'.mark :: rest.map Scope.mark⟩
      r.frame.code.size k :=
    fun k hk => htaken.held k (mem_append_left _ hk)
  have hnew : ∀ k ∈ held, k ∉ ks := fun k hk hk' => by
    refine (h.grows.held k hk).unnoted ?_
    simp [notes, hmarks, hks.mem_iff, hk']
  refine ⟨?_, ⟨h.keeps.parameters, h.keeps.enclosing, h.keeps.captured⟩, h.folder,
    fun code targets ht ha t ts htargets hfits => ?_⟩
  · refine (htaken.aim (fun k hk => mem_append_left _ hk) hx).mono id fun k => ?_
    simp only [mem_filter, mem_append, decide_eq_true_eq]
    exact ⟨fun hk => hk.1.resolve_left hk.2, fun hk => ⟨.inr hk, hnew k hk⟩⟩
  · subst htargets
    refine h.laid code _ ht (Agrees.of_take ha hheld hmarks ?_ ?_ ?_)
    · exact fun k hk => (hb k hk).imp_right fun hk => ⟨hk.1, hk.2 t hfits⟩
    · exact fun k hk => (hn k hk).imp_right fun hk => ⟨hk.1, hk.2 t hfits⟩
    · exact fun k hk => hks.mem_iff.2 (mem_append_right _ hk)

theorem turn (ho : Opens kind s r) (h : Placed quiet held lay r t) (hx : x ≤ t.frame.code.size)
    (h1 : takeContinues t = .ok (ks, t')) (h2 : patchAll ks x t' = .ok ((), u)) :
    Placed quiet held (fun code targets => ∀ t ts, targets = t :: ts → x = t.2 → lay code targets)
      r u := by
  obtain ⟨c, rest, hc, rfl, rfl⟩ := takeContinues_ok.1 h1
  refine handOver { c with continues := [] } ho h hc ?_ rfl (fun _ hk => hk) (by simp) hx
    (fun _ hk => .inl hk)
    (fun _ hk => .inr ⟨hk, fun _ ht => ht⟩) h2
  simpa [Mark.notes, mark] using perm_append_comm

theorem exit (ho : Opens kind s r) (h : Placed quiet held lay r t) (hx : x ≤ t.frame.code.size)
    (h1 : takeBreaks t = .ok (ks, t')) (h2 : patchAll ks x t' = .ok ((), u)) :
    Placed quiet held (fun code targets => ∀ t ts, targets = t :: ts → x = t.1 → lay code targets)
      r u := by
  obtain ⟨c, rest, hc, rfl, rfl⟩ := takeBreaks_ok.1 h1
  refine handOver { c with breaks := [] } ho h hc ?_ rfl (by simp) (fun _ hk => hk) hx
    (fun _ hk => .inr ⟨hk, fun _ ht => ht⟩) (fun _ hk => .inl hk) h2
  simp [Mark.notes, mark]

theorem leave (ho : Opens kind s r) (h : Placed quiet held lay r t)
    (hr : onFrame popScope t = .ok (c, u)) (hc : c.mark.notes = []) :
    Placed quiet held (fun code targets => ∀ t, lay code (t :: targets)) s u := by
  obtain ⟨rest, hscopes, rfl⟩ := popScope_ok.1 hr
  have hmarks : t.frame.sketch.marks = c.mark :: rest.map Scope.mark := by
    simp [Draft.sketch, Draft.marks, hscopes]
  have hkeeps := ho.keeps.trans h.keeps
  refine ⟨Sketch.Grows.leave (ho.sketch ▸ h.grows) hmarks hc,
    ⟨hkeeps.parameters, hkeeps.enclosing, hkeeps.captured⟩, ho.folder ▸ h.folder,
    fun code targets ht ha target => ?_⟩
  refine h.laid code _ ?_ (Agrees.of_leave ha hmarks hc target)
  simp [ho.marks, ht]

theorem leaveScope (hs : Ready folder s) (ho : Opens kind s r) (h : Placed quiet [] lay r t)
    (hn : ∀ c rest, t.frame.scopes = c :: rest → c.mark.notes = [])
    (hr : leaveScope v leaves t = .ok ((), u)) :
    Placed quiet [] (fun code targets => (∀ t, lay code (t :: targets)) ∧
      if leaves && v.has .leave then
        ∃ rewind, code[t.frame.code.size]? = some ⟨0, .leave 0 rewind⟩ ∧
          u.frame.code.size = t.frame.code.size + 1
      else u.frame.code.size = t.frame.code.size) s u := by
  obtain ⟨c, r1, r2, h1, hstill, hr⟩ := leaveScope_ok hr
  obtain ⟨rest, hc, hr1⟩ := popScope_ok.1 h1
  have hleft := leave ho h h1 (hn c rest hc)
  have hfreed := hleft.trans (still (hleft.ready hs) hstill)
  have hsize : r2.frame.code.size = t.frame.code.size := by rw [hstill.code, hr1]
  cases hl : leaves && v.has .leave with
  | true =>
    rw [hl, if_pos rfl] at hr
    have hadd := hfreed.trans (emit (hfreed.ready hs) rfl rfl hr)
    refine hadd.mono id (fun _ => .rfl) fun code targets hlay => ⟨hlay.1.1, ?_⟩
    obtain ⟨k, hr⟩ := discard_ok.1 hr
    obtain ⟨moves, -, -, rfl⟩ := add_ok.1 hr
    exact ⟨_, hsize ▸ hlay.2, by simp [hsize]⟩
  | false =>
    rw [hl, if_neg Bool.false_ne_true] at hr
    subst hr
    exact hfreed.mono id (fun _ => .rfl) fun code targets hlay => ⟨hlay.1, hsize⟩

theorem innermost_kind (ho : Opens kind s r) (h : Placed quiet held lay r t)
    (hc : t.frame.scopes = c :: rest) : c.kind = kind := by
  have hmarks := h.grows.marks
  rw [ho.sketch] at hmarks
  simp only [Draft.sketch, Draft.marks, hc, map_cons, forall₂_cons] at hmarks
  exact hmarks.1.kind

theorem pop (hkind : kind.takesBreak = false) (ho : Opens kind s r) (h : Placed quiet held lay r t)
    (hr : onFrame popScope t = .ok (c, u)) :
    Placed quiet held (fun code targets => ∀ t, lay code (t :: targets)) s u := by
  refine leave ho h hr ?_
  obtain ⟨rest, hc, -⟩ := popScope_ok.1 hr
  have hc' : c.mark ∈ t.frame.sketch.marks := by simp [Draft.sketch, Draft.marks, hc]
  have hk : c.mark.kind = kind := innermost_kind ho h hc
  have hloop : kind.isLoop = false := by
    cases kind <;> simp_all [ScopeKind.takesBreak, ScopeKind.isLoop]
  rw [Mark.notes, h.grows.tidy.breaks _ hc' (hk ▸ hkind),
    h.grows.tidy.continues _ hc' (hk ▸ hloop), append_nil]

theorem endLoop {exits : Option Nat} (hs : Ready folder s) (ho : Opens kind s r)
    (h : Placed quiet held lay r t) (hheld : ∀ k, k ∈ held ↔ k ∈ exits.toList)
    (hc : ∀ c rest, t.frame.scopes = c :: rest → c.continues = [])
    (hr : endLoop v exits t = .ok ((), u)) :
    Placed quiet [] (fun code targets =>
      (∀ again, lay code ((t.frame.code.size, again) :: targets)) ∧
      (∀ k ∈ exits.toList, code[k]? = (t.frame.code[k]?).map (·.aim t.frame.code.size)) ∧
      Ends v code t.frame.code.size u.frame.code.size) s u := by
  unfold Emit.endLoop at hr
  simp only [bind_ok, here_ok] at hr
  obtain ⟨_, t, ⟨rfl, rfl⟩, _, r1, h1, ks, r2, h2, _, r3, h3, hr⟩ := hr
  have haimed := h.aim (fun k hk => (hheld k).2 hk) (Nat.le_refl _) h1
  obtain rfl := patchAll_ok h1
  have hexit := exit ho haimed (by simp [sketch]) h2 h3
  obtain ⟨c, rest, hscopes, rfl, rfl⟩ := takeBreaks_ok.1 h2
  obtain rfl := patchAll_ok h3
  have hdone := hexit.settle fun k => by simp [hheld]
  refine (leaveScope hs ho hdone (fun c' rest' hc' => ?_) hr).mono id (fun _ => .rfl)
    fun code targets hl => ⟨fun again => ?_, ?_, ?_⟩
  · cases hc'
    simp [mark, Mark.notes, hc c rest hscopes]
  · exact (hl.1 (t.frame.code.size, again) _ _ rfl rfl).1
  · exact (hl.1 (t.frame.code.size, 0) _ _ rfl rfl).2
  · have hlast := hl.2
    simp only [sketch, Bool.true_and, aim_size] at hlast
    have hleave : v.has .leave = true ↔ 11 ≤ v.number := Version.has_iff rfl v
    unfold Ends
    split at hlast <;> rename_i hv <;> rw [hleave] at hv
    · rw [if_pos hv]
      exact hlast
    · rw [if_neg hv]
      exact hlast

end Placed

/-- The kinds of the open scopes, the innermost first. -/
def Session.kinds (s : Session) : List ScopeKind := s.frame.scopes.map (·.kind)

theorem Session.kinds_eq (s : Session) : s.kinds = s.frame.marks.map (·.kind) := by
  simp [Session.kinds, Draft.marks, Scope.mark]

theorem Opens.kinds (h : Opens kind s r) : r.kinds = kind :: s.kinds := by
  simp [Session.kinds_eq, h.marks]

theorem Placed.kinds_eq (h : Placed quiet held lay s t) : t.kinds = s.kinds := by
  have aux : ∀ {ms ms' : List Mark}, Forall₂ (Mark.Grows quiet s.frame.code.size) ms ms' →
      ms'.map Mark.kind = ms.map Mark.kind := by
    intro ms ms' hm
    induction hm with
    | nil => rfl
    | cons hm _ ih => rw [map_cons, map_cons, hm.kind, ih]
  simpa [sketch, Session.kinds_eq] using aux h.grows.marks

theorem mem_framesOf {f : Frame} : f ∈ framesOf code ↔ ∃ ins ∈ code, f ∈ ins.frames := by
  induction code with
  | nil => simp [framesOf]
  | cons ins code ih => simp [framesOf, ih]

/-- In a frame that was made from nothing all jumps are valid, also those in the frames in it. -/
theorem Placed.frame (h : Placed quiet [] lay s t) (hcode : s.frame.code = #[])
    (hmarks : s.frame.marks = []) :
    (∀ f ∈ t.frame.finish.preorder, f.JumpsValid) ∧ lay t.frame.code.toList [] := by
  have hsize : s.frame.sketch.code.size = 0 := by simp [sketch, hcode]
  have hnotes : t.frame.sketch.notes = [] := by
    have := h.grows.marks
    rw [show s.frame.sketch.marks = [] from hmarks, forall₂_nil_left_iff] at this
    simp [notes, this]
  refine ⟨fun f hf => ?_, h.laid t.frame.code.toList [] (by simp [hmarks]) (.refl rfl hnotes)⟩
  have hf' : f = t.frame.finish ∨ f ∈ framesOf t.frame.code.toList := by
    simpa [finish, Frame.preorder] using hf
  rcases hf' with rfl | hf
  · intro ins hins target htarget
    obtain ⟨k, hk⟩ := mem_iff_getElem?.1 hins
    have hget : t.frame.sketch.code[k]? = some ins := by
      simpa [Draft.finish, Draft.sketch] using hk
    obtain ⟨line, op⟩ := ins
    cases op <;> simp only [Operation.target?, reduceCtorEq, Option.some.injEq] at htarget
    subst htarget
    rename_i kind target
    cases target with
    | none =>
      have := h.grows.pending k _ (by omega) hget ⟨kind, rfl⟩
      simp [hnotes] at this
    | some x =>
      refine ⟨x, rfl, ?_⟩
      simpa [finish, sketch] using
        (h.grows.fits k _ (by omega) hget).target kind x rfl
  · obtain ⟨ins, hins, hf⟩ := mem_framesOf.1 hf
    obtain ⟨k, hk⟩ := mem_iff_getElem?.1 hins
    have hget : t.frame.sketch.code[k]? = some ins := by simpa [sketch] using hk
    exact (h.grows.fits k ins (by omega) hget).frames f hf

theorem Emit.includeFolder_ok {folder : String} (h : Emit.includeFolder s = .ok (folder, t)) :
    Idle s t ∧ t.includeFolder = some folder ∧ ∀ f, s.includeFolder = some f → folder = f := by
  unfold includeFolder at h
  cases hf : s.includeFolder with
  | some f =>
    simp only [hf, Except.ok.injEq, Prod.mk.injEq] at h
    obtain ⟨rfl, rfl⟩ := h
    exact ⟨.refl _, hf, fun f hf => Option.some.inj hf⟩
  | none =>
    simp only [hf, Except.ok.injEq, Prod.mk.injEq] at h
    obtain ⟨rfl, rfl⟩ := h
    exact ⟨⟨⟨.refl _, fun f hf' => by simp [hf] at hf'⟩, rfl, rfl⟩, rfl, fun f hf => by cases hf⟩

/-- What a context can include. -/
def Context.library (cx : Context) (folder : Option String) : Library :=
  ⟨cx.sources, folder, cx.projectFolder⟩

theorem Emit.locateInclude_ok {loc : Loc} {cx : Context} {path location : String}
    (hs : ∀ f, folder = some f → s.includeFolder = some f)
    (h : locateInclude cx loc path s = .ok (location, t)) :
    Idle s t ∧ ∃ first, t.includeFolder = some first ∧ (∀ f, folder = some f → first = f) ∧
      (cx.library folder).locate? first path = some location := by
  simp only [locateInclude, bind_ok] at h
  obtain ⟨first, r, h1, h2⟩ := h
  obtain ⟨hidle, hsettled, hfirst⟩ := includeFolder_ok h1
  suffices ht : t = r ∧ (cx.library folder).locate? first path = some location from
    ⟨ht.1 ▸ hidle, first, ht.1 ▸ hsettled, fun f hf => hfirst f (hs f hf), ht.2⟩
  unfold Library.locate?
  cases hx : cx.sources.exists_ (Path.join first path) with
  | true =>
    simp only [hx, if_true, pure_ok] at h2
    exact ⟨h2.2, by simp [Context.library, hx, h2.1]⟩
  | false =>
    cases hp : cx.projectFolder with
    | none => simp only [hx, hp, Bool.false_eq_true, if_false, reject_ok] at h2
    | some project =>
      cases hx' : cx.sources.exists_ (Path.join project path) with
      | true =>
        simp only [hx, hp, hx', Bool.false_eq_true, if_false, if_true, pure_ok] at h2
        exact ⟨h2.2, by simp [Context.library, hx, hp, hx', h2.1]⟩
      | false => simp only [hx, hp, hx', Bool.false_eq_true, if_false, reject_ok] at h2

theorem Emit.includeFile_ok {loc : Loc} {cx : Context} {path : String} {u : Unit}
    (hs : ∀ f, folder = some f → s.includeFolder = some f)
    (h : includeFile cx loc path s = .ok (u, t)) :
    ∃ location program r first, locateInclude cx loc path s = .ok (location, r) ∧ Idle s r ∧
      r.includeFolder = some first ∧ (cx.library folder).Includes path program ∧
      (cx.library folder).locate? first path = some location ∧
      cx.sources.read? location = some program ∧
      included cx.version loc.line path (cx.follow program.body) r = .ok (u, t) := by
  rw [includeFile_eq] at h
  obtain ⟨location, r, h1, h2⟩ := bind_ok.1 h
  obtain ⟨hidle, first, hsettled, hfirst, hlocate⟩ := locateInclude_ok hs h1
  cases hread : cx.sources.read? location with
  | none =>
    simp only [hread] at h2
    exact (reject_ok.1 h2).elim
  | some program =>
    simp only [hread] at h2
    exact ⟨location, program, r, first, h1, hidle, hsettled,
      ⟨first, location, hfirst, hlocate, hread⟩, hlocate, hread, h2⟩

end Adhoc
