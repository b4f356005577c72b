import Adhoc.Proofs.Counting
import Adhoc.Proofs.Flow

namespace Adhoc

open Emit List Draft Option Instruction

variable {k x : Nat} {line : UInt32} {v : Version} {ks : List Nat}

/-- The code so far has the depths of the profile. Jumps that are noted in a scope lead on with an
empty stack. -/
structure Draft.Profiled (v : Version) (g : Profile) (d : Draft) : Prop where
  start : g.depth 0 = 0
  here : g.depth d.code.size = d.depth.current
  ground : 0 ≤ d.depth.current
  capped : d.depth.current ≤ d.depth.highest
  frames : ∀ (k : Nat) (ins : Instruction), d.code[k]? = some ins → ∀ f ∈ ins.frames, f.Level v
  steady : ∀ (k : Nat) (ins : Instruction), d.code[k]? = some ins →
    ins.Steady v d.depth.highest (g.depth k) (g.depth (k + 1)) (g.taken k) fun t x =>
      t ≤ d.code.size ∧ g.depth t = x
  noted : ∀ k ∈ d.sketch.notes, k < d.code.size ∧ g.taken k = 0

/-- From `s` a run has come to `t`, where the profile `g` has become `g'`. -/
structure Advances (v : Version) (s : Session) (g : Profile) (t : Session) (g' : Profile) : Prop where
  size : s.frame.code.size ≤ t.frame.code.size
  keeps : s.frame.Keeps t.frame
  depth : ∀ k ≤ s.frame.code.size, g'.depth k = g.depth k
  taken : ∀ k < s.frame.code.size, g'.taken k = g.taken k
  sound : t.frame.Profiled v g'

/-- From `s` to `t` code was appended that has the depths which were counted for it: by `n` the depth
has changed, and at least `low` is needed at the start. If `empty` is true, this is only said of an
empty stack. -/
def Paced (v : Version) (empty : Prop) (n low : Int) (s t : Session) : Prop :=
  ∀ g, s.frame.Profiled v g → low ≤ s.frame.depth.current → (empty → s.frame.depth.current = 0) →
    ∃ g', Advances v s g t g' ∧ t.frame.depth.current = s.frame.depth.current + n

/-- The action starts and ends with an empty stack. -/
abbrev Emit.Levels {α : Type} (v : Version) (x : Emit α) : Prop := Runs (Paced v True) 0 0 x

/-- The action pushes a value. -/
abbrev Emit.Yields {α : Type} (v : Version) (x : Emit α) : Prop := Runs (Paced v False) 1 0 x

section

variable {empty empty' : Prop} {n n' low low' : Int} {s r t u : Session} {g g' g'' : Profile}
  {d e : Draft} {target : Option Nat} {kind : Jump}

theorem Draft.Profiled.same (h : d.Profiled v g) (hcode : e.code = d.code) (hdepth : e.depth = d.depth)
    (hnotes : ∀ k ∈ e.sketch.notes, k ∈ d.sketch.notes) : e.Profiled v g where
  start := h.start
  here := by rw [hcode, hdepth, h.here]
  ground := hdepth ▸ h.ground
  capped := hdepth ▸ h.capped
  frames := hcode ▸ h.frames
  steady := by
    rw [hcode, hdepth]
    exact h.steady
  noted k hk := hcode ▸ h.noted k (hnotes k hk)

namespace Advances

theorem trans (h : Advances v s g r g') (h' : Advances v r g' t g'') : Advances v s g t g'' where
  size := Nat.le_trans h.size h'.size
  keeps := h.keeps.trans h'.keeps
  depth k hk := (h'.depth k (Nat.le_trans hk h.size)).trans (h.depth k hk)
  taken k hk := (h'.taken k (Nat.lt_of_lt_of_le hk h.size)).trans (h.taken k hk)
  sound := h'.sound

variable (h : s.frame.Profiled v g)
include h

theorem same (hcode : t.frame.code = s.frame.code)
    (hdepth : t.frame.depth = s.frame.depth) (hkeeps : s.frame.Keeps t.frame)
    (hnotes : ∀ k ∈ t.frame.sketch.notes, k ∈ s.frame.sketch.notes) : Advances v s g t g where
  size := Nat.le_of_eq (congrArg _ hcode.symm)
  keeps := hkeeps
  depth _ _ := rfl
  taken _ _ := rfl
  sound := h.same hcode hdepth hnotes

theorem still (hs : Still s t) : Advances v s g t g :=
  same h hs.code hs.depth hs.keeps fun k hk => by
    simpa only [sketch, Sketch.notes, hs.marks] using hk

theorem push {ins : Instruction} {x : Int} {d : Depth}
    (ht : t = { s with frame := s.frame.write ins d })
    (hframes : ∀ f ∈ ins.frames, f.Level v)
    (hins : ins.Steady v d.highest s.frame.depth.current d.current x fun t y =>
      t ≤ s.frame.code.size ∧ g.depth t = y)
    (hhigh : s.frame.depth.highest ≤ d.highest) (hground : 0 ≤ d.current)
    (hcapped : d.current ≤ d.highest) :
    ∃ g', Advances v s g t g' ∧ g'.taken s.frame.code.size = x := by
  have hsize : t.frame.code.size = s.frame.code.size + 1 := by rw [ht, Array.size_push]
  refine ⟨⟨Function.update g.depth (s.frame.code.size + 1) d.current,
    Function.update g.taken s.frame.code.size x⟩, ⟨by omega, ht ▸ ⟨rfl, rfl, fun _ => rfl⟩,
    fun k hk => Function.update_of_ne (by omega) _ _,
    fun k hk => Function.update_of_ne (by omega) _ _, ?_⟩, Function.update_self ..⟩
  -- What is said of the old points is not changed by the new one.
  have hold : ∀ k, k ≤ s.frame.code.size →
      Function.update g.depth (s.frame.code.size + 1) d.current k = g.depth k :=
    fun k hk => Function.update_of_ne (by omega) _ _
  have harrives : ∀ x y, x ≤ s.frame.code.size ∧ g.depth x = y → x ≤ t.frame.code.size ∧
      Function.update g.depth (s.frame.code.size + 1) d.current x = y := by
    rintro x y ⟨hx, rfl⟩
    exact ⟨by omega, hold x hx⟩
  have hget : ∀ {k ins'}, t.frame.code[k]? = some ins' →
      (k = s.frame.code.size ∧ ins' = ins) ∨ (k < s.frame.code.size ∧ s.frame.code[k]? = some ins') := by
    intro k ins' hk
    rw [ht, Array.getElem?_push] at hk
    split at hk
    · exact .inl ⟨‹_›, (some.inj hk).symm⟩
    · exact .inr ⟨(Array.getElem?_eq_some_iff.1 hk).1, hk⟩
  have hdepth : t.frame.depth = d := by rw [ht]
  refine ⟨(hold 0 (Nat.zero_le _)).trans h.start, ?_, hdepth ▸ hground, hdepth ▸ hcapped,
    fun k ins' hk => ?_, fun k ins' hk => ?_, fun k hk => ?_⟩
  · rw [hsize, hdepth]
    exact Function.update_self ..
  · rcases hget hk with ⟨-, rfl⟩ | ⟨-, hk⟩
    · exact hframes
    · exact h.frames k ins' hk
  · rw [hdepth]
    rcases hget hk with ⟨rfl, rfl⟩ | ⟨hlt, hk⟩
    · simp only [hold _ le_rfl, h.here, Function.update_self]
      exact hins.mono (Int.le_refl _) harrives
    · simp only [hold k (by omega), hold (k + 1) hlt, Function.update_of_ne (Nat.ne_of_lt hlt)]
      exact (h.steady k ins' hk).mono hhigh harrives
  · obtain ⟨hlt, htaken⟩ := h.noted k (by rwa [ht] at hk)
    exact ⟨by omega, (Function.update_of_ne (Nat.ne_of_lt hlt) _ _).trans htaken⟩

theorem put {op : Operation} {moves : List Move}
    (ht : t = { s with frame := s.frame.write ⟨line, op⟩ (s.frame.depth.follow moves) })
    (htarget : op.target? = none) (hreturn : op.isReturn = false)
    (hframes : ∀ f ∈ op.frames, f.Level v) (he : op.effect v = .ok moves)
    (hdip : dip moves ≤ s.frame.depth.current) :
    ∃ g', Advances v s g t g' ∧ t.frame.depth.current = s.frame.depth.current + net moves := by
  have hcurrent := s.frame.depth.follow_current moves
  have hhigh := s.frame.depth.follow_highest moves
  have hnet := neg_net_le_dip moves
  obtain ⟨g', ha, -⟩ := push (x := 0) h ht hframes (hcurrent ▸ .plain htarget hreturn he hdip
    (Int.le_trans h.capped hhigh)) hhigh (by omega) (Depth.follow_capped h.capped moves)
  exact ⟨g', ha, ht ▸ hcurrent⟩

/-- A jump is appended, and then the depth is set. Behind a jump that is always taken it can be any;
if the jump has a target, this has the depth with which it leads there. -/
theorem jumpSet {d : Depth}
    (hr : add v (.jump kind target) line s = .ok (k, r))
    (ht : t = { r with frame := { r.frame with depth := d } })
    (hdip : dip kind.effect ≤ s.frame.depth.current)
    (htarget : ∀ x, target = some x → x ≤ s.frame.code.size ∧
      g.depth x = s.frame.depth.current + net kind.aside)
    (hdepth : kind ≠ .always → d.current = s.frame.depth.current + net kind.effect)
    (hhigh : s.frame.depth.highest ≤ d.highest) (hground : 0 ≤ d.current)
    (hcapped : d.current ≤ d.highest) :
    ∃ g', Advances v s g t g' ∧ k < t.frame.code.size ∧
      g'.taken k = s.frame.depth.current + net kind.aside := by
  obtain ⟨moves, -, rfl, rfl⟩ := add_ok.1 hr
  have hjump : Steady v d.highest s.frame.depth.current d.current
      (s.frame.depth.current + net kind.aside) (fun t y => t ≤ s.frame.code.size ∧ g.depth t = y)
      ⟨line, .jump kind target⟩ := .jump hdip (Int.le_trans h.capped hhigh) hdepth htarget
  obtain ⟨g', ha, htaken⟩ := push h ht (fun _ hf => nomatch hf) hjump hhigh hground hcapped
  exact ⟨g', ha, by simp [ht], htaken⟩

theorem jump (hr : add v (.jump kind target) line s = .ok (k, t))
    (hdip : dip kind.effect ≤ s.frame.depth.current)
    (htarget : ∀ x, target = some x → x ≤ s.frame.code.size ∧
      g.depth x = s.frame.depth.current + net kind.aside) :
    ∃ g', Advances v s g t g' ∧ (k < t.frame.code.size ∧
      g'.taken k = s.frame.depth.current + net kind.aside) ∧
      t.frame.depth.current = s.frame.depth.current + net kind.effect := by
  have hdepth : t.frame.depth = s.frame.depth.follow kind.effect := by
    obtain ⟨moves, he, -, rfl⟩ := add_ok.1 hr
    cases he
    rfl
  have hcurrent := s.frame.depth.follow_current kind.effect
  have hnet := neg_net_le_dip kind.effect
  rw [← hdepth] at hcurrent
  obtain ⟨g', ha, hk⟩ := jumpSet h hr rfl hdip htarget (fun _ => hcurrent)
    (hdepth ▸ s.frame.depth.follow_highest kind.effect) (by omega)
    (hdepth ▸ Depth.follow_capped h.capped _)
  exact ⟨g', ha, hk, hcurrent⟩

theorem leap (hr : add v (.jump .always target) line s = .ok (k, t))
    (htarget : ∀ x, target = some x → x ≤ s.frame.code.size ∧ g.depth x = s.frame.depth.current) :
    ∃ g', Advances v s g t g' ∧ (k < t.frame.code.size ∧ g'.taken k = s.frame.depth.current) ∧
      t.frame.depth.current = s.frame.depth.current := by
  simpa [net, Jump.aside, Jump.effect] using jump h hr h.ground (by
    simpa [net, Jump.aside, Jump.effect] using htarget)

theorem test (hkind : kind = .ifTrue ∨ kind = .ifFalse)
    (hr : Emit.jump v kind line s = .ok (k, t)) (hvalue : 1 ≤ s.frame.depth.current) :
    ∃ g', Advances v s g t g' ∧ (k < t.frame.code.size ∧ g'.taken k = s.frame.depth.current - 1) ∧
      t.frame.depth.current = s.frame.depth.current - 1 := by
  rcases hkind with rfl | rfl <;> exact jump h hr hvalue nofun

theorem aim (hx : x ≤ s.frame.code.size)
    (hks : ∀ k ∈ ks, g.taken k = g.depth x) (hr : patchAll ks x s = .ok ((), t)) :
    Advances v s g t g ∧ t.frame.depth = s.frame.depth := by
  rw [patchAll_ok hr]
  have hget : ∀ {k ins}, (s.frame.sketch.aim ks x).code[k]? = some ins →
      ∃ ins', s.frame.code[k]? = some ins' ∧ ins = if k ∈ ks then ins'.aim x else ins' := by
    intro k ins hk
    rw [Sketch.aim_get, map_eq_some_iff] at hk
    obtain ⟨ins', hk, rfl⟩ := hk
    exact ⟨ins', hk, rfl⟩
  refine ⟨⟨by simp [sketch], ⟨rfl, rfl, fun _ => rfl⟩, fun _ _ => rfl, fun _ _ => rfl,
    h.start, by simpa [sketch] using h.here, h.ground, h.capped, fun k ins hk => ?_,
    fun k ins hk => ?_, fun k hk => ?_⟩, rfl⟩
  · obtain ⟨ins', hk', rfl⟩ := hget hk
    split
    · rw [frames_aim]
      exact h.frames k ins' hk'
    · exact h.frames k ins' hk'
  · obtain ⟨ins', hk', rfl⟩ := hget hk
    have hs := h.steady k ins' hk'
    simp only [Sketch.aim_size, sketch]
    split
    · exact hs.aim ⟨hx, (hks k ‹_›).symm⟩
    · exact hs
  · simpa [sketch] using h.noted k hk

theorem patchHere (hk : g.taken k = s.frame.depth.current)
    (hr : Emit.patchHere k s = .ok ((), t)) : Advances v s g t g ∧ t.frame.depth = s.frame.depth :=
  aim h (le_rfl) (forall_mem_singleton.2 (hk.trans h.here.symm)) (patchHere_ok hr)

end Advances

namespace Paced

theorem mono (h : Paced v empty n low s t) (hn : n = n') (hl : low ≤ low') (he : empty → empty') :
    Paced v empty' n' low' s t :=
  hn ▸ fun g hs hlow hempty => h g hs (Int.le_trans hl hlow) fun h => hempty (he h)

theorem lift (h : Paced v False n low s t) : Paced v empty n low s t :=
  h.mono rfl (Int.le_refl _) False.elim

theorem trans (h : Paced v empty n low s r) (h' : Paced v empty' n' low' r t)
    (hg : empty' → empty ∧ n = 0) : Paced v empty (n + n') (max low (low' - n)) s t := by
  intro g hs hlow hempty
  obtain ⟨g1, h1, hn⟩ := h g hs (by omega) hempty
  obtain ⟨g2, h2, hn'⟩ := h' g1 h1.sound (by omega) fun he => by
    obtain ⟨he, rfl⟩ := hg he
    rw [hn, hempty he]
    rfl
  exact ⟨g2, h1.trans h2, by omega⟩

theorem andThen (h : Paced v True 0 0 s r) (h' : Paced v True 0 0 r t) : Paced v True 0 0 s t :=
  (h.trans h' fun _ => ⟨trivial, rfl⟩).mono (by decide) (by decide) id

theorem still (h : Still s t) : Paced v empty 0 0 s t := fun g hs _ _ =>
  ⟨g, .still hs h, by rw [h.depth, Int.add_zero]⟩

end Paced

theorem Traced.paced {is : List Instruction} {ms : List Move} (h : Traced v False is ms)
    (hcode : t.frame.code = s.frame.code ++ is) (hdepth : t.frame.depth = s.frame.depth.follow ms)
    (hmarks : t.frame.marks = s.frame.marks) (hkeeps : s.frame.Keeps t.frame) :
    Paced v False (net ms) (dip ms) s t := by
  induction h generalizing s with
  | nil =>
    intro g hs _ _
    refine ⟨g, .same hs (by simp [hcode]) hdepth hkeeps fun k hk => ?_, by
      rw [hdepth]
      simp [net, Depth.follow]⟩
    simpa only [sketch, Sketch.notes, hmarks] using hk
  | @step line op moves is ms ht hf hstate he _ ih =>
    -- The session after the first instruction.
    let r : Session := { s with frame := s.frame.write ⟨line, op⟩ (s.frame.depth.follow moves) }
    have hfirst : Paced v False (net moves) (dip moves) s r := fun g hs hlow _ =>
      Advances.put hs rfl ht (Operation.isReturn_eq_false hstate)
        (by simp [hf]) he hlow
    have hrest := ih (s := r) (by simp [r, hcode]) (by rw [hdepth, Depth.follow_append]) hmarks
      ⟨hkeeps.parameters, hkeeps.enclosing, hkeeps.captured⟩
    rw [net_append, dip_append]
    exact hfirst.trans hrest False.elim
  | stop h => exact h.elim

instance : Ledger v False (Paced v False) where
  straight := by
    rintro n low s t ⟨⟨is, ms, hcode, ht, hd, rfl, hl⟩, hmarks, hkeeps, -⟩
    exact (ht.paced hcode hd hmarks hkeeps).mono rfl hl id
  trans h h' := h.trans h' False.elim
  after h h' g hs hlow hempty := by
    obtain ⟨g1, h1, hn⟩ := h g hs hs.ground hempty
    obtain ⟨g2, h2, hn'⟩ := h' g1 h1.sound (by omega) False.elim
    exact ⟨g2, h1.trans h2, by omega⟩
  before h h' g hs hlow hempty := by
    obtain ⟨g1, h1, hn⟩ := h g hs hlow hempty
    obtain ⟨g2, h2, hn'⟩ := h' g1 h1.sound h1.sound.ground False.elim
    exact ⟨g2, h1.trans h2, by omega⟩
  mono h hn hl := h.mono hn hl id

end

namespace Emit

variable {α β : Type} {empty : Prop} {x : Emit α} {f : α → Emit β}

theorem Runs.lift {n low : Int} (h : Runs (Paced v False) n low x) :
    Runs (Paced v empty) n low x := fun _ _ _ hr => (h hr).lift

theorem Runs.andThen (hx : Levels v x) (hf : ∀ a, Levels v (f a)) : Levels v (x >>= f) := by
  intro s b t h
  obtain ⟨a, r, h1, h2⟩ := bind_ok.1 h
  exact (hx h1).andThen (hf a h2)

theorem Runs.skipThen (hx : Neutral x) (hf : ∀ a, Levels v (f a)) : Levels v (x >>= f) := by
  have hstart : Runs (Paced v False) 0 0 x := .neutral hx
  exact hstart.lift.andThen hf

end Emit

section

variable {s r t u : Session} {g : Profile} {kind : ScopeKind} {leaves : Bool}

theorem Opens.advances (h : Opens kind s r) (hs : s.frame.Profiled v g) : Advances v s g r g :=
  .same hs h.code h.depth h.keeps fun k hk => by
    simpa [Draft.sketch, Sketch.notes, h.marks, Mark.notes] using hk

theorem leaveScope_paced : Levels v (leaveScope v leaves) := by
  intro s _ t h
  obtain ⟨c, r1, r2, h1, hstill, h⟩ := leaveScope_ok h
  have hpop : Paced v True 0 0 s r1 := by
    obtain ⟨rest, hscopes, rfl⟩ := popScope_ok.1 h1
    refine fun g hs _ _ => ⟨g, .same hs rfl rfl ⟨rfl, rfl, fun _ => rfl⟩ fun k hk => ?_, by simp⟩
    simp only [sketch, marks, Sketch.notes, hscopes, map_cons, flatMap_cons]
    exact mem_append_right _ hk
  have hfreed := hpop.andThen (.still hstill)
  split at h
  · have hleave : Runs (Paced v False) 0 0 (emit v (.leave 0 r2.frame.slots.rewindIndex) 0) :=
      .emit _ rfl rfl ⟨rfl, Int.le_refl _⟩
    exact hfreed.andThen (hleave h).lift
  · exact h ▸ hfreed

theorem Paced.scope (ho : Opens kind s r) (h : Paced v True 0 0 r t)
    (hr : leaveScope v leaves t = .ok ((), u)) : Paced v True 0 0 s u := by
  have hopen : Paced v True 0 0 s r := fun g hs _ _ => ⟨g, ho.advances hs, by simp [ho.depth]⟩
  exact (hopen.andThen h).andThen (leaveScope_paced hr)

theorem Advances.take {c : Scope} {rest : List Scope} (c' : Scope) (hs : s.frame.Profiled v g)
    (hscopes : s.frame.scopes = c :: rest) (hc : ∀ k ∈ c'.mark.notes, k ∈ c.mark.notes) :
    Advances v s g { s with frame := { s.frame with scopes := c' :: rest } } g ∧
      ∀ k ∈ c.mark.notes, g.taken k = 0 := by
  refine ⟨.same hs rfl rfl ⟨rfl, rfl, fun _ => rfl⟩ fun k hk => ?_, fun k hk => (hs.noted k ?_).2⟩
  all_goals simp only [sketch, marks, Sketch.notes, hscopes, map_cons,
    flatMap_cons, mem_append] at hk ⊢
  · exact hk.imp_left (hc k)
  · exact .inl hk

theorem Advances.turn (hs : s.frame.Profiled v g) (hx : x ≤ s.frame.code.size)
    (hempty : g.depth x = 0) (h1 : takeContinues s = .ok (ks, r))
    (h2 : patchAll ks x r = .ok ((), t)) : Advances v s g t g ∧ t.frame.depth = s.frame.depth := by
  obtain ⟨c, rest, hscopes, rfl, rfl⟩ := takeContinues_ok.1 h1
  obtain ⟨htake, hzero⟩ := Advances.take { c with continues := [] } hs hscopes fun k hk =>
    mem_append_left _ (by simpa [Mark.notes, Scope.mark] using hk)
  obtain ⟨haim, hdepth⟩ := Advances.aim htake.sound hx
    (fun k hk => (hzero k (mem_append_right _ hk)).trans hempty.symm) h2
  exact ⟨htake.trans haim, hdepth⟩

theorem endLoop_paced {exits : Option Nat} (hs : s.frame.Profiled v g)
    (hempty : s.frame.depth.current = 0) (hexits : ∀ k ∈ exits.toList, g.taken k = 0)
    (h : endLoop v exits s = .ok ((), t)) :
    ∃ g', Advances v s g t g' ∧ t.frame.depth.current = 0 := by
  simp only [endLoop, bind_ok, here_ok] at h
  obtain ⟨_, s, ⟨rfl, rfl⟩, _, r1, h1, ks, r2, h2, _, r3, h3, h4⟩ := h
  have hexit : g.depth s.frame.code.size = 0 := hs.here.trans hempty
  obtain ⟨a1, hdepth1⟩ := Advances.aim hs (le_rfl) (fun k hk => (hexits k hk).trans hexit.symm) h1
  obtain ⟨c, rest, hscopes, rfl, rfl⟩ := takeBreaks_ok.1 h2
  obtain ⟨a2, hzero⟩ := Advances.take { c with breaks := [] } a1.sound hscopes fun k hk =>
    mem_append_right _ (by simpa [Mark.notes, Scope.mark] using hk)
  obtain ⟨a3, hdepth3⟩ := Advances.aim a2.sound a1.size
    (fun k hk => (hzero k (mem_append_left _ hk)).trans hexit.symm) h3
  have hempty3 : r3.frame.depth.current = 0 := by rw [hdepth3, hdepth1, hempty]
  obtain ⟨g', a4, hcurrent⟩ := leaveScope_paced h4 g a3.sound (Int.le_of_eq hempty3.symm)
    fun _ => hempty3
  exact ⟨g', ((a1.trans a2).trans a3).trans a4, by omega⟩

theorem Draft.updateFirst_notes {α : Type} {p : Scope → Bool} {f : Scope → α × Scope}
    (hf : ∀ c, ∀ j ∈ (f c).2.mark.notes, j ∈ c.mark.notes ∨ j = k) {scopes scopes' : List Scope}
    {a : α} (h : updateFirst p f scopes = some (a, scopes')) :
    ∀ j ∈ (scopes'.map Scope.mark).flatMap Mark.notes,
      j ∈ (scopes.map Scope.mark).flatMap Mark.notes ∨ j = k := by
  induction scopes generalizing scopes' a with
  | nil => cases h
  | cons c rest ih =>
    intro j hj
    unfold updateFirst at h
    split at h
    · simp only [some.injEq, Prod.mk.injEq] at h
      obtain ⟨-, rfl⟩ := h
      simp only [map_cons, flatMap_cons, mem_append] at hj ⊢
      rcases hj with hj | hj
      · exact (hf c j hj).imp_left .inl
      · exact .inl (.inr hj)
    · simp only [map_eq_some_iff, Prod.mk.injEq, Prod.exists] at h
      obtain ⟨_, rest', h, -, rfl⟩ := h
      simp only [map_cons, flatMap_cons, mem_append] at hj ⊢
      rcases hj with hj | hj
      · exact .inl (.inl hj)
      · exact (ih h j hj).imp_left .inr

theorem noted_paced {d : Draft} (h1 : jump v .always line s = .ok (k, r))
    (hnote : ∃ scopes, d = { r.frame with scopes := scopes } ∧
      ∀ j ∈ (scopes.map Scope.mark).flatMap Mark.notes, j ∈ r.frame.sketch.notes ∨ j = k) :
    Paced v True 0 0 s { r with frame := d } := by
  intro g hs _ hempty
  obtain ⟨g', ha, ⟨hk, htaken⟩, hcurrent⟩ := Advances.jump hs h1 hs.ground nofun
  obtain ⟨scopes, rfl, hnotes⟩ := hnote
  have hs' := ha.sound
  refine ⟨g', ⟨ha.size, ha.keeps.trans ⟨rfl, rfl, fun _ => rfl⟩, ha.depth, ha.taken, hs'.start, hs'.here,
    hs'.ground, hs'.capped, hs'.frames, hs'.steady, fun j hj => ?_⟩, hcurrent⟩
  rcases hnotes j hj with hj | rfl
  · exact hs'.noted j hj
  · exact ⟨hk, htaken.trans (by simp [hempty trivial, Jump.aside, Jump.effect, net])⟩

theorem Paced.giveBack {d : Depth} {n : Int} (h : Paced v False n 0 s r)
    (hn : n = if 11 ≤ v.number then 1 else 0)
    (ht : t = { r with frame := r.frame.write ⟨line, stateOperation v .return⟩ d })
    (hd : d.current = r.frame.depth.current - n ∧ d.highest = r.frame.depth.highest) :
    Paced v True 0 0 s t := by
  intro g hs hlow hempty
  obtain ⟨g1, h1, hcurrent⟩ := h g hs hlow False.elim
  have hstart := hempty trivial
  have hcapped := h1.sound.capped
  have hbounds : 0 ≤ n := by
    rw [hn]
    split <;> decide
  have hreturn : Steady v d.highest r.frame.depth.current d.current 0
      (fun t y => t ≤ r.frame.code.size ∧ g1.depth t = y) ⟨line, stateOperation v .return⟩ := by
    refine .giveBack ?_ (by omega) (by omega)
    unfold stateOperation
    split <;> rfl
  obtain ⟨g2, h2, -⟩ := Advances.push h1.sound ht
    (by simp [frames, (stateOperation_plain v .return).2]) hreturn (by omega) (by omega)
    (by omega)
  refine ⟨g2, h1.trans h2, ?_⟩
  rw [ht]
  show d.current = _
  omega

theorem bareReturn_paced (hv : ¬ 11 ≤ v.number) : Levels v (bareReturn v) := by
  intro s _ t h
  have hstart : Paced v False 0 0 s s := .still (.refl s)
  exact hstart.giveBack (if_neg hv).symm (emitUntracked_ok.1 h) ⟨by simp, rfl⟩

theorem handOff_paced {x : Emit Unit} (hv : 11 ≤ v.number) (hx : Yields v x) : Levels v (do
      x
      handOff v .return) := by
  intro s _ t h
  obtain ⟨_, r, h1, h2⟩ := bind_ok.1 h
  obtain ⟨_, r', h3, h4⟩ := bind_ok.1 h2
  rw [emitUntracked_ok.1 h3] at h4
  obtain ⟨d, hd, rfl⟩ := onFrame_ok.1 h4
  cases hd
  exact (hx h1).giveBack (if_pos hv).symm rfl ⟨rfl, rfl⟩

theorem emptyReturn_paced : Levels v (emptyReturn v) := by
  have hspan : v.has .voidForEmptyReturn = true ↔ 11 ≤ v.number := Version.has_iff rfl v
  unfold emptyReturn
  split
  · rename_i hv
    refine handOff_paced (hspan.1 hv) ?_
    unfold void
    rw [if_pos (show v.has .voidInsteadOfNop = true from hv)]
    exact .emit _ rfl rfl ⟨rfl, Int.le_refl _⟩
  · rename_i hv
    exact bareReturn_paced fun h => hv (hspan.2 h)

theorem frameExit_paced : Levels v (frameExit v) := by
  refine .skipThen .frame fun f => .ite ?_ emptyReturn_paced
  exact Runs.lift (.neutral (.pure _))

theorem setExit_paced : Runs (Paced v False) 0 0 (setState v .exit) := by
  intro s _ t h g hs hlow _
  have hstate : (stateOperation v .exit).isReturn = false ∧
      (stateOperation v .exit).effect v = .ok [] := by
    unfold stateOperation
    split <;> exact ⟨rfl, rfl⟩
  obtain ⟨k, hadd⟩ := discard_ok.1 h
  obtain ⟨moves, he, -, ht⟩ := add_ok.1 hadd
  cases hstate.2.symm.trans he
  exact Advances.put hs ht (stateOperation_plain v .exit).1 hstate.1
    (by simp [(stateOperation_plain v .exit).2]) he hlow

/-- All frames in a frame that is paced from its start have the depths of a profile. -/
theorem Paced.frame (h : Paced v True 0 0 s t) (hcode : s.frame.code = #[])
    (hmarks : s.frame.marks = []) (hdepth : s.frame.depth = {}) :
    s.frame.Keeps t.frame ∧ ∀ f ∈ t.frame.finish.preorder, f.Level v := by
  have hstart : s.frame.Profiled v ⟨fun _ => 0, fun _ => 0⟩ := by
    refine ⟨rfl, ?_, ?_, ?_, ?_, ?_, ?_⟩ <;>
      simp [hcode, hdepth, hmarks, sketch, Sketch.notes]
  obtain ⟨g, ha, hcurrent⟩ := h _ hstart (by simp [hdepth]) (by simp [hdepth])
  have hs := ha.sound
  refine ⟨ha.keeps, fun f hf => ?_⟩
  have hf' : f = t.frame.finish ∨ f ∈ framesOf t.frame.code.toList := by
    simpa [finish, Frame.preorder] using hf
  rcases hf' with rfl | hf
  · have hlength : t.frame.finish.code.length = t.frame.code.size := Array.length_toList
    refine ⟨Int.le_trans hs.ground hs.capped, g, hs.start, ?_, fun i ins hi => ?_⟩
    · rw [hlength, hs.here, hcurrent, hdepth]
      rfl
    · rw [hlength]
      exact hs.steady i ins (by simpa [finish] using hi)
  · obtain ⟨ins, hins, hf⟩ := mem_framesOf.1 hf
    obtain ⟨k, hk⟩ := mem_iff_getElem?.1 hins
    exact hs.frames k ins (by simpa using hk) f hf

end

end Adhoc
