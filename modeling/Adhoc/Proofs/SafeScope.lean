import Adhoc.Proofs.Safety

namespace Adhoc

open Emit List Trail Draft Scope Slots

/-- The state after its innermost scope is popped, with the slots that are left. -/
def Session.closed (u : Session) (slots : Slots) : Session :=
  u.at { u.frame with slots := slots, scopes := u.frame.scopes.tail }

namespace Emit

variable {v : Version} {u : Session} {c : Scope} {cs : List Scope}

theorem popScope_freed {free : Slots → Symbol → Slots} {noted : Scope → List Symbol}
    {rest : Emit Unit} (hu : u.frame.scopes = c :: cs) :
    (do
      let scope ← onFrame popScope
      if v.has .freesOnLeave then freeAll free (noted scope)
      rest) u = rest (u.closed (left v free (noted c) u.frame.slots)) := by
  have hpop : onFrame popScope u = .ok (c, u.closed u.frame.slots) :=
    popScope_ok.2 ⟨cs, hu, by rw [Session.closed, hu]; rfl⟩
  rw [show ∀ f : Scope → Emit Unit, (onFrame popScope >>= f) u = f c (u.closed u.frame.slots)
    from fun f => by simp only [bind, StateT.bind, hpop]; rfl]
  unfold left
  split <;> rfl

end Emit

/-- Jumps round the scope are noted in it exactly if one of the jumps goes there. -/
def Scope.Waits (es : Set Slip) (c : Scope) : Prop :=
  0 < c.continues.length ↔ ∃ label, .leaves label ∈ es ∧ c.kind.catches label = true

theorem Scope.Waits.turned {es fs : Set Slip} {c c' : Scope} (h : c.Waits es) (hc : c.Turned fs c') :
    (∃ label, .leaves label ∈ es ∪ fs ∧ c.kind.catches label = true) ↔ 0 < c'.continues.length := by
  obtain ⟨hle, hlt⟩ := hc
  rw [Waits] at h
  simp only [Set.mem_union, or_and_right, exists_or, ← h, ← hlt]
  omega

/-- What is known in a scope inside another. -/
def Known.inner (fresh : Prop) : Known := { deep := True, fresh := fresh }

/-- The action closes the scope that the construct at hand has opened. `Q` is the trail since the
jumps round the scope were taken from it. -/
def Closing (n : Regime) (kind : ScopeKind) (h : Known) (js : List Nat) (Q D : Trail) (x : Emit Unit) :
    Prop :=
  ∀ ⦃s u c E⦄, Inside n kind E js s u c → u.Holds h js → (∀ f, u.Looks f → c.Waits (Q f)) →
    Answers (s.Blames n (E ⊔ D))
      (fun _ t => RunInvariant n (E ⊔ D) [] [] s t ∧ t.Holds { fresh := h.fresh } []) (x u)

variable {α : Type} {n : Regime} {o : Prop} {kind : ScopeKind} {h : Known} {js : List Nat}
  {Q D E : Trail} {v : Version} {f : α → Emit Unit} {js1 : α → List Nat} {x : Emit α}
  {new : α → Known} {s : Session}

theorem Session.Blames.past (h : s.Blames n D) : s.Blames n (D.past kind) := by
  obtain ⟨f, hf, hn⟩ := h
  exact ⟨f, hf.mono (names_past ▸ subset_rfl), hn, fun label hl => nomatch hl⟩

theorem RunInvariant.andThen {fresh : Prop} {r : Session} (hp : RunInvariant n D [] [] s r)
    (hr : r.Holds { fresh := fresh } [])
    (hx : Safe n False { fresh := fresh } [] E (fun _ => []) x) :
    Answers (s.Blames n (D ⊔ E))
      (fun _ t => RunInvariant n (D ⊔ E) [] [] s t ∧ t.Holds { fresh := fresh } []) (x r) := by
  refine (hx r hr False.elim).mono hp.blames ?_
  rintro a t ⟨hp', ht⟩
  exact ⟨hp.trans hp', ht⟩

namespace Closing

theorem learn {result : α → Prop} (hx : Gives n True h js D new js1 x)
    (hresult : ∀ ⦃s a t⦄, x s = .ok (a, t) → result a)
    (hf : ∀ a, result a → Closing n kind (h.add (new a)) (js1 a) (Q ⊔ D) E (f a)) :
    Closing n kind h js Q (D.past kind ⊔ E) (x >>= f) := by
  intro s u c P hi hu hwaits
  have hopen : u.frame.scopes ≠ [] := by rw [hi.scopes]; simp
  refine ((hx u hu fun _ => hopen).eq.mono (fun hb => ?_) fun _ _ h => h).bind ?_
  · have hblame : s.Blames n (P ⊔ D.past kind) := hi.runInvariant.blames (r := u.outer) hb.past
    exact hblame.mono (sup_le_sup_left le_sup_left P)
  · rintro a t ⟨⟨hp, ht⟩, ha⟩
    obtain ⟨c', hi', hturned⟩ := hi.run hp
    rw [← sup_assoc]
    refine hf a (hresult ha) hi' ht fun f hf => ?_
    rw [Waits, hi'.kind, ← hi.kind]
    exact ((hwaits f (hp.looks hf)).turned (hturned f hf)).symm

theorem bind (hx : Safe n True h js D js1 x) (hf : ∀ a, Closing n kind h (js1 a) (Q ⊔ D) E (f a)) :
    Closing n kind h js Q (D.past kind ⊔ E) (x >>= f) :=
  learn hx (fun _ _ _ _ => trivial) fun a _ => hf a

theorem ownLearn (hx : Gives n True h js ⊥ new js1 x)
    (hf : ∀ a, Closing n kind (h.add (new a)) (js1 a) Q D (f a)) :
    Closing n kind h js Q D (x >>= f) := by
  have := learn hx (fun _ _ _ _ => trivial) fun a _ => (sup_bot_eq Q).symm ▸ hf a
  rwa [past_bot, bot_sup_eq] at this

theorem own (hx : Safe n True h js ⊥ js1 x) (hf : ∀ a, Closing n kind h (js1 a) Q D (f a)) :
    Closing n kind h js Q D (x >>= f) :=
  ownLearn hx hf

theorem looked {names : α → List Symbol} {y : Emit α} (hy : Interns names y)
    (hf : ∀ a, Closing n kind (h.add { names := names a }) js Q D (f a)) :
    Closing n kind h js Q D (y >>= f) := ownLearn hy.gives hf

theorem ite {c : Prop} [Decidable c] {x y : Emit Unit} (hx : Closing n kind h js Q D x)
    (hy : Closing n kind h js Q D y) : Closing n kind h js Q D (if c then x else y) := by
  split
  · exact hx
  · exact hy

theorem takeContinues {f : List Nat → Emit Unit}
    (hf : ∀ ks, Closing n kind h (ks ++ js) ⊥ D (f ks)) :
    Closing n kind h js Q D (Emit.takeContinues >>= f) := by
  intro s u c P hi hu hwaits
  have hr : Emit.takeContinues u = .ok (c.continues, u.withTop { c with continues := [] }) :=
    takeContinues_ok.2 ⟨c, _, hi.scopes, rfl, rfl⟩
  have hperm : c.mark.notes.Perm (c.continues ++ (Scope.mark { c with continues := [] }).notes) := by
    simpa [Mark.notes, mark] using perm_append_comm
  have hbare : Scope.bare { c with continues := [] } = c.bare := rfl
  obtain ⟨hi', hu'⟩ := hi.take hu hbare hperm (fun _ hk => hk) fun _ hk => (not_mem_nil hk).elim
  rw [show ∀ f : List Nat → Emit Unit, (Emit.takeContinues >>= f) u =
    f c.continues (u.withTop { c with continues := [] }) from
      fun f => by simp only [Bind.bind, StateT.bind, hr]; rfl]
  refine hf c.continues hi' hu' fun f _ => iff_of_false (Nat.lt_irrefl 0) ?_
  rintro ⟨label, hl, -⟩
  exact notMem_bot hl

theorem leaves {u : Session} {c : Scope} {P : Trail} (leaves : Bool) (hi : Inside n kind P [] s u c)
    (hu : u.Holds h []) (hb : c.breaks = []) (hwaits : ∀ f, u.Looks f → c.Waits (Q f)) :
    Answers (s.Blames n (P ⊔ Q.stray kind))
      (fun _ t => RunInvariant n (P ⊔ Q.stray kind) [] [] s t ∧ t.Holds { fresh := h.fresh } [])
      (leaveScope v leaves u) := by
  have hslots : s.frame.slots.Extends (left v freeLocal c.locals u.frame.slots) := by
    have hin : s.frame.slots.Extends u.frame.slots := hi.runInvariant.slots
    unfold left
    split
    · exact hin.freed (fun _ _ => foldl_freeLocal_sub) fun i x hx hlive =>
        foldl_freeLocal_kept (fun hmem => hlive (hi.locals x hmem)) hx
    · exact hin
  obtain ⟨hp, hsound⟩ := hi.close hu.toSound hb (Q := Q.stray kind) (fun f e he => he.1) (fun f hf => by
    rw [mem_stray, and_iff_right rfl, ← hi.kind]
    exact hwaits f hf) hslots
  have hlast : Safe n False { fresh := h.fresh } [] ⊥ (fun _ => []) (markLeave v leaves) :=
    .ite (.own .frame fun _ => .plain rfl rfl) (.pure ())
  have := hp.andThen (.of_fresh hsound hu.fresh) hlast
  rw [sup_bot_eq] at this
  rwa [leaveScope, popScope_freed hi.scopes]

theorem leave (leaves : Bool) (hkind : kind.takesBreak = false) :
    Closing n kind h [] Q (Q.stray kind) (leaveScope v leaves) := by
  intro s u c P hi hu hwaits
  refine Closing.leaves leaves hi hu ?_ hwaits
  have hmem : c.mark ∈ u.frame.sketch.marks := by
    rw [sketch, marks, hi.scopes]
    simp
  exact hu.tidy.breaks c.mark hmem (by rw [mark, hi.kind, hkind])

theorem endLoop (exits : Option Nat) :
    Closing n kind h exits.toList Q (Q.stray kind) (endLoop v exits) := by
  have hlast {k : Known} {exit : Nat} (hexit : exit ∈ k.places) :
      Closing n kind k [] Q (Q.stray kind) (do
        let breaks ← takeBreaks
        patchAll breaks exit
        leaveScope v true) := by
    intro s u c P hi hu hwaits
    have hr : takeBreaks u = .ok (c.breaks, u.withTop { c with breaks := [] }) :=
      takeBreaks_ok.2 ⟨c, _, hi.scopes, rfl, rfl⟩
    have hperm : c.mark.notes.Perm (c.breaks ++ (mark { c with breaks := [] }).notes) := by
      simp [Mark.notes, mark]
    have hbare : bare { c with breaks := [] } = c.bare := rfl
    obtain ⟨hi', hu'⟩ := hi.take hu hbare hperm (fun _ hk => (not_mem_nil hk).elim) fun _ hk => hk
    rw [show ∀ f : List Nat → Emit Unit, (takeBreaks >>= f) u =
      f c.breaks (u.withTop { c with breaks := [] }) from
        fun f => by simp only [Bind.bind, StateT.bind, hr]; rfl]
    have hpatch : Safe n True k (c.breaks ++ []) ⊥ (fun _ => []) (patchAll c.breaks exit) :=
      .patchAll _ hexit
    refine ((hpatch _ hu' fun _ => cons_ne_nil _ _).eq.mono (fun hb => ?_) fun _ _ h => h).bind ?_
    · have hblame : s.Blames n (P ⊔ ⊥) := hi'.runInvariant.blames (r := u.outer) hb
      exact hblame.mono (sup_le_sup_left bot_le P)
    · rintro ⟨⟩ t ⟨⟨hp, ht⟩, hok⟩
      obtain ⟨c', hi'', -⟩ := hi'.run hp
      rw [past_bot, sup_bot_eq] at hi''
      -- Patching leaves the scopes alone, so the scope is the one whose jumps were taken.
      have hc : c' = { c with breaks := [] } := by
        have hscopes := hi''.scopes
        rw [patchAll_ok hok] at hscopes
        exact (cons.inj hscopes).1.symm
      subst hc
      exact Closing.leaves true hi'' ht rfl fun f hf => hwaits f (hp.looks hf)
  have hexits {k : Known} {exit : Nat} (hexit : exit ∈ k.places) :
      Safe n True k exits.toList ⊥ (fun _ => []) (patchAll exits.toList exit) := by
    have hpatch : Safe n True k (exits.toList ++ []) ⊥ (fun _ => [])
        (patchAll exits.toList exit) := .patchAll _ hexit
    rwa [append_nil] at hpatch
  exact ownLearn .here fun exit =>
    own (hexits (by simp)) fun _ => hlast (by simp)

theorem leaveModule : Closing n .module h [] Q ⊥ (leaveModuleScope v) := by
  intro s u c P hi hu hwaits
  have hmem : c.mark ∈ u.frame.sketch.marks := by
    rw [sketch, marks, hi.scopes]
    simp
  have hb : c.breaks = [] := hu.tidy.breaks c.mark hmem (by rw [mark, hi.kind]; rfl)
  have hc : c.continues = [] := hu.tidy.continues c.mark hmem (by rw [mark, hi.kind]; rfl)
  have hslots : s.frame.slots.Extends (left v freeStatic c.statics u.frame.slots) := by
    have hin : s.frame.slots.Extends u.frame.slots := hi.runInvariant.slots
    refine hin.trans (.of_local? ?_)
    unfold left
    split
    · exact foldl_view (fun _ _ => freeStatic_local?) _
    · rfl
  obtain ⟨hp, hsound⟩ := hi.close hu.toSound hb (Q := ⊥) (fun f e he => (notMem_bot he).elim)
    (fun f hf => by rw [hc]; exact iff_of_false (Nat.lt_irrefl 0) notMem_bot) hslots
  have hlast : Safe n False { fresh := h.fresh } [] ⊥ (fun _ => []) (markModuleLeave v) :=
    .ite (.own .get fun _ => .plain rfl rfl) (.pure ())
  have := hp.andThen (.of_fresh hsound hu.fresh) hlast
  rw [sup_bot_eq] at this
  rwa [leaveModuleScope, popScope_freed hi.scopes]

theorem andThen {x y : Emit Unit} (hx : Closing n kind h js Q D x)
    (hy : Safe n False { fresh := h.fresh } [] ⊥ (fun _ => []) y) :
    Closing n kind h js Q D (x >>= fun _ => y) := by
  intro s u c P hi hu hwaits
  refine (hx hi hu hwaits).bind ?_
  rintro ⟨⟩ t ⟨hp, ht⟩
  have := hp.andThen ht hy
  rwa [sup_bot_eq] at this

theorem open_sound (hs : s.Sound) (hkind : s.frame.scopes = [] → kind = .block) :
    (s.open kind).Sound := by
  refine ⟨hs.table, ⟨hs.frame.source, hs.frame.parameters, hs.frame.captured, hs.frame.code⟩,
    hs.tidy.enter kind, fun first hlast => ?_⟩
  have hbase := hs.base first
  simp only [Session.open, map_cons, getLast?_cons, Option.mem_some_iff] at hlast
  cases hs : s.frame.scopes with
  | nil =>
    simp only [hs, map_nil, getLast?_nil, Option.getD_none] at hlast
    exact hlast ▸ hkind hs
  | cons c cs =>
    rw [hs] at hbase hlast
    refine hbase ?_
    rw [map_cons, List.getLast?_cons] at hlast ⊢
    exact congrArg some hlast

theorem opened {x : Emit Unit} (hx : Closing n .block {} [] ⊥ D x) :
    Safe n o {} [] D (fun _ => []) (Emit.pushScope .block >>= fun _ => x) := by
  intro s hs _
  have := hx (.opened s .block) (.of_sound (open_sound hs.toSound fun _ => rfl)) fun f _ =>
    iff_of_false (Nat.lt_irrefl 0) fun ⟨_, hl, _⟩ => notMem_bot hl
  rwa [bot_sup_eq] at this

theorem nested {x : Emit Unit} (hx : ∀ fresh, Closing n kind (.inner fresh) [] ⊥ D x) :
    Behaves n D (Emit.pushScope kind >>= fun _ => x) := by
  intro h js s hs ho
  have hinner : (s.open kind).Holds (.inner (s.frame.returnsAtTop = false)) [] :=
    { Session.Holds.of_fresh (open_sound hs.toSound fun h => absurd h (ho trivial)) id with
      deep := fun _ => Nat.succ_le_succ (length_pos_iff.2 (ho trivial)) }
  have := hx _ (.opened s kind) hinner fun f _ =>
    iff_of_false (Nat.lt_irrefl 0) fun ⟨_, hl, _⟩ => notMem_bot hl
  rw [bot_sup_eq] at this
  refine this.mono id ?_
  rintro a t ⟨hp, ht⟩
  have hreturns : t.frame.returnsAtTop = true → s.frame.returnsAtTop = true := by
    intro h
    by_contra hn
    rw [ht.fresh (Bool.eq_false_iff.2 hn)] at h
    cases h
  exact ⟨hp.frame js hreturns, hs.framed hp ht.toSound fun _ => hreturns⟩

end Closing

end Adhoc
