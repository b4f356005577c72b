import Adhoc.Proofs.Placement
import Adhoc.Proofs.Straight

namespace Adhoc

open Emit List

variable {lib : Library} {v : Version} {ps qs : List Part} {line : UInt32} {p : Part}
  {kind : ScopeKind} {leaves : Bool} {k : Nat}

section

variable {code : List Instruction} {around : List Enclosing}

theorem Tiled.widen {i j : Nat} (h : Tiled lib v code around ps i j) {i' j' : Nat} (hi : i' ≤ i)
    (hj : j ≤ j') : Tiled lib v code around ps i' j' := by
  induction ps generalizing i i' with
  | nil =>
    cases h with
    | nil hij => exact .nil (by omega)
  | cons p ps ih =>
    cases h with
    | cons ha hp hps => exact .cons (by omega) hp (ih hps (le_rfl))

theorem Tiled.append {i j : Nat} (h : Tiled lib v code around ps i j)
    (h' : Tiled lib v code around qs j k) : Tiled lib v code around (ps ++ qs) i k := by
  induction ps generalizing i with
  | nil =>
    cases h with
    | nil hij => exact h'.widen hij (le_rfl)
  | cons p ps ih =>
    cases h with
    | cons ha hp hps => exact .cons ha hp (ih hps)

theorem Tiled.single {i j : Nat} (h : Laid lib v code around p i j) :
    Tiled lib v code around [p] i j := .cons (le_rfl) h (.nil (le_rfl))

end

/-- The loops and switches among the open scopes. -/
def surroundings : List ScopeKind → List (Nat × Nat) → List Enclosing
  | .loop label :: kinds, t :: ts => ⟨label, t.1, some t.2⟩ :: surroundings kinds ts
  | .switch :: kinds, t :: ts => ⟨none, t.1, none⟩ :: surroundings kinds ts
  | _ :: kinds, _ :: ts => surroundings kinds ts
  | _, _ => []

section

variable (lib : Library) (v : Version)

/-- No part holds a `continue` in its own frame. -/
def Quiet (ps : List Part) : Prop := ∀ p ∈ ps, ¬ Continues lib v p

/-- From `s` to `t` the parts were lowered one after the other. -/
def Tiles (held : List Nat) (ps : List Part) (s t : Session) : Prop :=
  Placed (Quiet lib v ps) held (fun code targets => Tiled lib v code (surroundings s.kinds targets) ps
    s.frame.code.size t.frame.code.size) s t

end

theorem Quiet.parts (h : Quiet lib v [p]) (hps : ps ⊆ p.parts v) :
    Quiet lib v ps := fun _ hq hc =>
  h p (mem_singleton_self _) (.part (hps hq) hc)

namespace Tiles

variable {held held' : List Nat} {s r t u : Session} {folder : Option String}

theorem of_placed {lay : List Instruction → List (Nat × Nat) → Prop} (h : Placed True held lay s t) :
    Tiles lib v held [] s t :=
  h.mono (fun _ => trivial) (fun _ => .rfl) fun _ _ _ => .nil h.size_le

theorem trans (h : Tiles lib v held ps s r) (h' : Tiles lib v held' qs r t) :
    Tiles lib v (held ++ held') (ps ++ qs) s t := by
  have hkinds := h.kinds_eq
  have hps : Quiet lib v (ps ++ qs) → Quiet lib v ps := fun hq p hp =>
    hq p (mem_append_left _ hp)
  have hqs : Quiet lib v (ps ++ qs) → Quiet lib v qs := fun hq p hp =>
    hq p (mem_append_right _ hp)
  have h1 := h.mono hps (fun _ => .rfl) fun _ _ hl => hl
  have h2 := h'.mono hqs (fun _ => .rfl) fun _ _ hl => hl
  refine (h1.trans h2).mono id (fun _ => .rfl) fun code targets hl => ?_
  rw [hkinds] at hl
  exact hl.1.append hl.2

theorem aim {ks : List Nat} {x : Nat} (h : Tiles lib v held ps s t) (hks : ∀ k ∈ ks, k ∈ held)
    (hx : x ≤ t.frame.code.size) (hr : patchAll ks x t = .ok ((), u)) :
    Tiles lib v (held.filter (· ∉ ks)) ps s u := by
  refine (Placed.aim h hks hx hr).mono id (fun _ => .rfl) fun code targets hl => ?_
  obtain rfl := patchAll_ok hr
  simpa [Draft.sketch] using hl.1

theorem patchHere (h : Tiles lib v held ps s t) (hk : k ∈ held)
    (hr : patchHere k t = .ok ((), u)) : Tiles lib v (held.filter (· ∉ [k])) ps s u :=
  h.aim (by simpa using hk) (le_rfl) (patchHere_ok hr)

theorem settle (h : Tiles lib v held ps s t) (hh : ∀ k, k ∉ held) : Tiles lib v [] ps s t :=
  Placed.settle h hh

theorem still (hs : Ready folder s) (h : Still s t) : Tiles lib v [] [] s t :=
  of_placed (Placed.still hs h)

theorem jump {kind : Jump} (hs : Ready folder s) (h : jump v kind line s = .ok (k, t)) :
    Tiles lib v [k] [] s t :=
  of_placed (Placed.jump hs h)

theorem across {kind : Jump} (hs : Ready folder s) (h1 : Emit.jump v kind line s = .ok (k, r))
    (h : Tiles lib v held ps r t) (h2 : Emit.patchHere k t = .ok ((), u)) :
    Tiles lib v held ps s u := by
  refine Placed.mono (((jump hs h1).trans h).patchHere (by simp) h2) id (fun k' => ?_) fun _ _ hl => hl
  -- The jumps that are held come later.
  have hnew : k' ∈ held → k' ≠ k := fun hk => by
    have := (h.grows.held k' hk).new
    have := jump_ok h1
    simp only [Draft.sketch] at *
    omega
  simp only [singleton_append, mem_filter, mem_cons, not_mem_nil, or_false,
    decide_eq_true_eq]
  exact ⟨fun hk => hk.1.resolve_left hk.2, fun hk => ⟨.inr hk, hnew hk⟩⟩

theorem node (hp : p.isPlain = true) (h : Tiles lib v held (p.parts v) s t) :
    Tiles lib v held [p] s t := by
  refine h.mono (·.parts fun _ hq => hq) (fun _ => .rfl) fun code targets hl => ?_
  exact .single (.plain hp hl)

theorem pop {c : Scope} (hkind : kind.takesBreak = false) (ho : Opens kind s r)
    (h : Tiles lib v held ps r t) (hr : onFrame Draft.popScope t = .ok (c, u)) :
    Tiles lib v held ps s u := by
  refine (Placed.pop hkind ho h hr).mono id (fun _ => .rfl) fun code targets hl => ?_
  obtain ⟨rest, -, rfl⟩ := popScope_ok.1 hr
  have hseen : surroundings r.kinds ((0, 0) :: targets) = surroundings s.kinds targets := by
    rw [ho.kinds]
    cases kind <;> first | rfl | cases hkind
  rw [← hseen, ← ho.code]
  exact hl (0, 0)

end Tiles

section

variable (lib : Library) (v : Version)

/-- The action lowers the parts one after the other. -/
def Lays {α : Type} (ps : List Part) (x : Emit α) : Prop :=
  ∀ ⦃s a t⦄, Ready lib.includeFolder s → x s = .ok (a, t) → Tiles lib v [] ps s t

/-- The action lowers the loop, which may have a label. -/
def LaysLoop (label : Option String) (loop : Stmt) (x : Emit Unit) : Prop :=
  ∀ ⦃s a t⦄, Ready lib.includeFolder s → x s = .ok (a, t) →
    Placed (Quiet lib v [.stmt loop]) [] (fun code targets =>
      LaidLoop lib v code (surroundings s.kinds targets) label loop s.frame.code.size
        t.frame.code.size) s t

end

namespace Lays

variable {α β : Type} {x : Emit α} {f : α → Emit β}

theorem straight {n low : Int} (h : Straight v True n low x) : Lays lib v [] x := by
  intro s a t hs hr
  obtain ⟨⟨is, ms, hcode, ht, -⟩, hmarks, hkeeps, hfolder⟩ := h hr
  exact .of_placed (.plain is hs ht.plain hcode hmarks hkeeps hfolder)

theorem neutral (h : Neutral x) : Lays lib v [] x :=
  fun _ _ _ hs hr => .still hs (h hr).still

theorem bind (hx : Lays lib v ps x) (hf : ∀ a, Lays lib v qs (f a)) :
    Lays lib v (ps ++ qs) (x >>= f) := by
  intro s b t hs h
  obtain ⟨a, r, h1, h2⟩ := bind_ok.1 h
  have hfirst := hx hs h1
  exact hfirst.trans (hf a (hfirst.ready hs) h2)

theorem own (hx : Lays lib v [] x) (hf : ∀ a, Lays lib v ps (f a)) :
    Lays lib v ps (x >>= f) := bind hx hf

theorem first (hx : Lays lib v [p] x) (hf : ∀ a, Lays lib v ps (f a)) :
    Lays lib v (p :: ps) (x >>= f) := bind hx hf

theorem last (hx : Lays lib v ps x) (hf : ∀ a, Lays lib v [] (f a)) : Lays lib v ps (x >>= f) := by
  simpa using bind hx hf

theorem pure (a : α) : Lays lib v [] (Pure.pure a : Emit α) := neutral (.pure a)

theorem reject {loc : Loc} {c : Cause} : Lays lib v ps (reject loc c : Emit α) := by
  intro s a t _ h
  exact (reject_ok.1 h).elim

theorem ite {c : Prop} [Decidable c] {y : Emit α} (hx : Lays lib v ps x) (hy : Lays lib v ps y) :
    Lays lib v ps (if c then x else y) := by
  split
  · exact hx
  · exact hy

theorem discard (hx : Lays lib v ps x) : Lays lib v ps (Functor.discard x) := by
  intro s a t hs h
  obtain ⟨a, h⟩ := discard_ok.1 h
  exact hx hs h

theorem node (hp : p.isPlain = true) (hx : Lays lib v (p.parts v) x) :
    Lays lib v [p] x := fun _ _ _ hs h => .node hp (hx hs h)

theorem dropDepth (n : Int) : Lays lib v [] (onFrame (Draft.dropDepth n)) := by
  intro s a t hs h
  obtain ⟨d, hd, rfl⟩ := onFrame_ok.1 h
  cases hd
  exact .of_placed (.plain [] hs (by simp) (by simp) rfl ⟨rfl, rfl, fun _ => rfl⟩ fun _ hf => hf)

theorem emit {op : Operation} (ht : op.target? = none) (hf : op.frames = []) :
    Lays lib v [] (emit v op line) := fun _ _ _ hs h => .of_placed (.emit hs ht hf h)

end Lays

theorem Tiles.step {α : Type} {held : List Nat} {s r t : Session} {x : Emit α} {a : α}
    (h : Tiles lib v held ps s r) (hs : Ready lib.includeFolder s) (hx : Lays lib v qs x)
    (hr : x r = .ok (a, t)) : Tiles lib v held (ps ++ qs) s t := by
  simpa using h.trans (hx (h.ready hs) hr)

theorem Emit.leaveScope_lays (c : Scope) :
    Lays lib v [] (do
      if v.has .freesOnLeave then freeAll Slots.freeLocal c.locals
      markLeave v leaves) := by
  have hlast : Lays lib v [] (markLeave v leaves) :=
    .ite (.own (.neutral .frame) fun f => .emit rfl rfl) (.pure ())
  exact .ite (.own (.neutral (freeAll_neutral _ _)) fun _ => hlast) hlast

theorem Tiles.scope {s r t u : Session} (hs : Ready lib.includeFolder s)
    (hkind : kind.takesBreak = false) (ho : Opens kind s r) (h : Tiles lib v [] ps r t)
    (hr : leaveScope v leaves t = .ok ((), u)) : Tiles lib v [] ps s u := by
  obtain ⟨c, r, h1, h2⟩ := bind_ok.1 hr
  have hpop := Tiles.pop hkind ho h h1
  simpa using hpop.trans (leaveScope_lays c (hpop.ready hs) h2)

theorem Lays.scope {x : Emit Unit} (hkind : kind.takesBreak = false) (hx : Lays lib v ps x) :
    Lays lib v ps (do
      pushScope kind
      x
      leaveScope v leaves) := by
  intro s a t hs h
  simp only [bind_ok] at h
  obtain ⟨_, r, h1, _, r1, h2, h3⟩ := h
  have ho := pushScope_opens h1
  exact .scope hs hkind ho (hx (ho.ready hs) h2) h3

/-- A frame that was made from nothing has valid jumps, and so have the frames in it. -/
theorem Tiles.frame {s t : Session} (h : Tiles lib v [] ps s t) (hcode : s.frame.code = #[])
    (hmarks : s.frame.marks = []) :
    (∀ f ∈ t.frame.finish.preorder, f.JumpsValid) ∧
      Tiled lib v t.frame.finish.code [] ps 0 t.frame.finish.code.length := by
  obtain ⟨hvalid, hlaid⟩ := Placed.frame h hcode hmarks
  have hkinds : s.kinds = [] := by simp [Session.kinds_eq, hmarks]
  exact ⟨hvalid, by simpa [hcode, hkinds, surroundings, Draft.finish] using hlaid⟩

theorem Tiles.routine {n : Node} {s r t : Session} {name : Option Symbol} {frame : Frame}
    {isMethod : Bool} (hs : Ready lib.includeFolder s) (hp : p.body? = some n)
    (h : Tiles lib v [] (p.parts v) s r) (hvalid : ∀ f ∈ frame.preorder, f.JumpsValid)
    (hframe : Tiled lib v frame.code [] [n.part] 0 frame.code.length)
    (hr : emit v (.subroutine name frame isMethod) line r = .ok ((), t)) :
    Tiles lib v [] [p] s t := by
  obtain ⟨k, hr⟩ := discard_ok.1 hr
  have hfits : Instruction.Fits (r.frame.code.size + 1) ⟨line, .subroutine name frame isMethod⟩ :=
    ⟨fun _ _ h => (nomatch h), hvalid⟩
  have hquiet : Quiet lib v [p] → Quiet lib v (p.parts v) := (·.parts fun _ hq => hq)
  have hadd := (Placed.mono h hquiet (fun _ => .rfl) fun _ _ hl => hl).trans
    (Placed.add (h.ready hs) hfits (by rintro ⟨kind, hk⟩; cases hk) hr)
  refine hadd.mono id (fun _ => .rfl) fun code targets hl => ?_
  obtain ⟨moves, -, -, rfl⟩ := add_ok.1 hr
  exact .single (by simpa using Laid.routine hp hl.1 hl.2 hframe)

end Adhoc
