import Adhoc.Proofs.RunInvariant

namespace Adhoc

open Emit List Draft Trail Operation

variable {α β : Type} {n : Regime} {js ks : List Nat} {o c : Prop} {D : Trail} {h : Known}
  {v : Version} {x y : Emit α} {names : α → List Symbol} {s : Session} {f : α → Emit β}
  {js' : β → List Nat} {op : Operation} {line : UInt32} {d : Draft} {a : α}

/-- The action gives what is asked for or rejects the program. It fails in no other way, unless
includes go too deep, and then `deep` holds. -/
def Answers {α : Type} (deep : Prop) (good : α → Session → Prop) : Except Failure (α × Session) → Prop
  | .ok (a, t) => good a t
  | .error (.rejected _) => True
  | .error (.defect _) => False
  | .error .includesTooDeep => deep

namespace Answers

variable {deep deep' : Prop} {good good' : α → Session → Prop} {r : Except Failure (α × Session)}

theorem of_ok {t : Session} (h : r = .ok (a, t)) (hg : good a t) : Answers deep good r := by
  rw [h]
  exact hg

theorem mono (h : Answers deep good r) (hd : deep → deep') (hg : ∀ a t, good a t → good' a t) :
    Answers deep' good' r := by
  match r, h with
  | .ok (a, t), h => exact hg a t h
  | .error (.rejected _), _ => trivial
  | .error .includesTooDeep, h => exact hd h

theorem bind {after : β → Session → Prop} (hx : Answers deep good (x s))
    (hf : ∀ a r, good a r → Answers deep after (f a r)) : Answers deep after ((x >>= f) s) := by
  rw [show (x >>= f) s = (x s).bind fun p => f p.1 p.2 from rfl]
  generalize x s = r at hx
  match r, hx with
  | .ok (a, t), h => exact hf a t h
  | .error (.rejected _), _ => trivial
  | .error .includesTooDeep, h => exact h

theorem eq (h : Answers deep good r) : Answers deep (fun a t => good a t ∧ r = .ok (a, t)) r := by
  match r, h with
  | .ok (a, t), h => exact ⟨h, rfl⟩
  | .error (.rejected _), _ => trivial
  | .error .includesTooDeep, h => exact h

end Answers

section

variable (n : Regime) (o : Prop) (h : Known) (js : List Nat) (D : Trail)

/-- The action is safe and holds the jumps `js'` after it; something is known of its result. A scope
is open if `o` holds. -/
def Gives (new : α → Known) (js' : α → List Nat) (x : Emit α) : Prop :=
  ∀ s, s.Holds h js → (o → s.frame.scopes ≠ []) →
    Answers (s.Blames n D)
      (fun a t => RunInvariant n D js (js' a) s t ∧ t.Holds (h.add (new a)) (js' a)) (x s)

/-- As `Gives`, with nothing known of the result. -/
def Safe (js' : α → List Nat) (x : Emit α) : Prop := Gives n o h js D (fun _ => {}) js' x

/-- The action is safe, leaves no trail and holds the same jumps after it. -/
abbrev Clean (x : Emit α) : Prop := Safe n o h js ⊥ (fun _ => js) x

/-- The action is safe in every construct. -/
def Behaves (x : Emit α) : Prop := ∀ {h : Known} {js : List Nat}, Safe n True h js D (fun _ => js) x

/-- The action is safe for itself: it holds no jumps, and all it knows it learns itself. -/
def Acts (x : Emit α) : Prop := Safe n True {} [] D (fun _ => []) x

end

section

variable {E : Trail} {new : α → Known} {js1 : α → List Nat} {new' : β → Known}

theorem Gives.bindWhere {result : α → Prop} (hx : Gives n o h js D new js1 x)
    (hresult : ∀ ⦃s a t⦄, x s = .ok (a, t) → result a)
    (hf : ∀ a, result a → Gives n o (h.add (new a)) (js1 a) E new' js' (f a)) :
    Gives n o h js (D ⊔ E) new' js' (x >>= f) := by
  intro s hs ho
  refine ((hx s hs ho).eq.mono (fun hb => hb.mono le_sup_left) fun _ _ h => h).bind ?_
  rintro a r ⟨⟨hp, hr⟩, ha⟩
  refine (hf a (hresult ha) r hr fun h => hp.scopes_ne (ho h)).mono hp.blames ?_
  rintro b t ⟨hp', ht⟩
  refine ⟨hp.trans hp', { ht with
    names := fun y hy => ht.names y ?_
    locals := fun y hy => ht.locals y ?_
    places := fun y hy => ht.places y ?_ }⟩ <;>
  · simp only [Known.add, mem_append] at hy ⊢
    exact hy.imp_right .inr

theorem Gives.bind (hx : Gives n o h js D new js1 x)
    (hf : ∀ a, Gives n o (h.add (new a)) (js1 a) E new' js' (f a)) :
    Gives n o h js (D ⊔ E) new' js' (x >>= f) :=
  bindWhere hx (fun _ _ _ _ => trivial) fun a _ => hf a

theorem Gives.own (hx : Gives n o h js ⊥ new js1 x)
    (hf : ∀ a, Gives n o (h.add (new a)) (js1 a) D new' js' (f a)) :
    Gives n o h js D new' js' (x >>= f) := by
  have := bind hx hf
  rwa [bot_sup_eq] at this

theorem Gives.last (hx : Gives n o h js D new js1 x)
    (hf : ∀ a, Gives n o (h.add (new a)) (js1 a) ⊥ new' js' (f a)) :
    Gives n o h js D new' js' (x >>= f) := by
  have := bind hx hf
  rwa [sup_bot_eq] at this

theorem Gives.before {new : Known} (hx : Gives n o h js ⊥ (fun _ => new) js1 x)
    (hf : ∀ a, Safe n o (h.add new) (js1 a) D js' (f a)) :
    Gives n o h js D (fun _ => new) js' (x >>= f) := by
  intro s hs ho
  refine (hx s hs ho).mono (fun hb => hb.mono bot_le) (fun _ _ h => h) |>.bind ?_
  rintro a r ⟨hp, hr⟩
  refine (hf a r hr fun h => hp.scopes_ne (ho h)).mono (fun hb => ?_) fun b t ⟨hp', ht⟩ => ⟨?_, ht⟩
  · exact bot_sup_eq D ▸ hp.blames hb
  · exact bot_sup_eq D ▸ hp.trans hp'

theorem Gives.safe (hx : Gives n o h js D new js1 x) : Safe n o h js D js1 x := by
  intro s hs ho
  refine (hx s hs ho).mono id ?_
  rintro a t ⟨hp, ht⟩
  exact ⟨hp, ht.forget⟩

theorem Gives.pure (hnames : ∀ y ∈ (new a).names, y ∈ h.names)
    (hlocals : ∀ y ∈ (new a).locals, y ∈ h.locals) (hplaces : ∀ k ∈ (new a).places, k ∈ h.places) :
    Gives n o h js ⊥ new (fun _ => js) (Pure.pure a : Emit α) := by
  intro s hs _
  have hidle := Session.Idles.refl hs.table
  exact ⟨hidle.runInvariant js, { hs with
    names := fun y hy => hs.names y ((mem_append.1 hy).elim (hnames y) id)
    locals := fun y hy => hs.locals y ((mem_append.1 hy).elim (hlocals y) id)
    places := fun k hk => hs.places k ((mem_append.1 hk).elim (hplaces k) id) }⟩

theorem Gives.frame :
    Gives n o h js ⊥ (fun f => { names := f.source.toList }) (fun _ => js) frame := by
  intro s hs _
  have hidle := Session.Idles.refl hs.table
  refine .of_ok rfl ⟨hidle.runInvariant js, { hs with names := fun y hy => ?_ }⟩
  rcases mem_append.1 hy with hy | hy
  · obtain ⟨x, hx, hl⟩ := hs.frame.source
    simp only [hx, Option.toList_some, mem_singleton] at hy
    exact hy ▸ hl
  · exact hs.names y hy

namespace Safe

theorem bind (hx : Safe n o h js D js1 x) (hf : ∀ a, Safe n o h (js1 a) E js' (f a)) :
    Safe n o h js (D ⊔ E) js' (x >>= f) :=
  Gives.bind hx hf

theorem own (hx : Safe n o h js ⊥ js1 x) (hf : ∀ a, Safe n o h (js1 a) D js' (f a)) :
    Safe n o h js D js' (x >>= f) := Gives.own hx hf

theorem last (hx : Safe n o h js D js1 x) (hf : ∀ a, Safe n o h (js1 a) ⊥ js' (f a)) :
    Safe n o h js D js' (x >>= f) := Gives.last hx hf

theorem ownLearn (hx : Gives n o h js ⊥ new js1 x)
    (hf : ∀ a, Safe n o (h.add (new a)) (js1 a) D js' (f a)) : Safe n o h js D js' (x >>= f) :=
  Gives.own hx hf

theorem pure (a : α) : Clean n o h js (Pure.pure a : Emit α) :=
  Gives.pure (fun _ hy => nomatch hy) (fun _ hy => nomatch hy) fun _ hk => nomatch hk

theorem reorder (hp : js.Perm ks) (hx : Safe n o h ks D js1 x) : Safe n o h js D js1 x := by
  intro s hs ho
  refine (hx s (hs.perm hp) ho).mono id ?_
  rintro a t ⟨hinvariant, ht⟩
  exact ⟨hinvariant.permLeft hp.symm, ht⟩

theorem result (a : α) (hjs : js.Perm (js1 a)) : Safe n o h js ⊥ js1 (Pure.pure a : Emit α) := by
  intro s hs _
  have hidle := Session.Idles.refl hs.table
  exact ⟨(hidle.runInvariant js).perm hjs, hs.perm hjs⟩

theorem reject {loc : Loc} {c : Cause} : Safe n o h js D js1 (reject loc c) :=
  fun _ _ _ => trivial

theorem ite [Decidable c] (hx : Safe n o h js D js1 x) (hy : Safe n o h js D js1 y) :
    Safe n o h js D js1 (if c then x else y) := by
  split
  · exact hx
  · exact hy

theorem require {c : Bool} {loc : Loc} {cause : Cause} :
    Clean n o h js (require c loc cause) := ite (pure ()) reject

theorem discard (hx : Safe n o h js D (fun _ => ks) x) :
    Safe n o h js D (fun _ => ks) (Functor.discard x) := by
  intro s hs ho
  exact Answers.bind (x := x) (f := fun _ => Pure.pure ()) (hx s hs ho) fun _ _ hr => hr

theorem idle (hx : ∀ s : Session, s.Sound → (o → s.frame.scopes ≠ []) →
    (∀ y ∈ h.names, s.symbols.Lists y) → ∃ a t, x s = .ok (a, t) ∧ s.Idles t) :
    Clean n o h js x := by
  intro s hs ho
  obtain ⟨a, t, hr, hidle⟩ := hx s hs.toSound ho hs.names
  exact .of_ok hr ⟨hidle.runInvariant js, hidle.holds hs⟩

theorem get : Clean n o h js (MonadState.get : Emit Session) :=
  idle fun s hs _ _ => ⟨s, s, rfl, .refl hs.table⟩

theorem frame : Clean n o h js frame := Gives.frame.safe

theorem change {f : Session → Session}
    (hf : ∀ s, (f s).symbols = s.symbols ∧ (f s).frame = s.frame ∧
      (f s).includeFolder = s.includeFolder) :
    Clean n o h js (modify f : Emit Unit) := by
  refine idle fun s hs _ _ => ⟨(), f s, rfl, ?_⟩
  obtain ⟨hsymbols, hframe, hfolder⟩ := hf s
  exact .of_frame (hsymbols ▸ hs.table) (fun x hx => hsymbols ▸ hx) hframe hfolder

theorem define (kind : MemberKind) (symbol : Symbol) : Clean n o h js (define kind symbol) :=
  idle fun _ hs _ _ => ⟨_, _, rfl, .of_frame hs.table (fun _ hx => hx) rfl rfl⟩

theorem warn (w : Warning) : Clean n o h js (warn w) := by
  refine change fun s => ?_
  split <;> exact ⟨rfl, rfl, rfl⟩

theorem forM {f : α → Emit Unit} (l : List α) (hf : ∀ a ∈ l, Clean n o h js (f a)) :
    Clean n o h js (l.forM f) := by
  induction l with
  | nil => exact pure ()
  | cons a l ih => exact own (hf a (by simp)) fun _ => ih fun b hb => hf b (by simp [hb])

end Safe

theorem Gives.placed {x : Emit Nat} (hx : Clean n o h js x)
    (hplace : ∀ ⦃s k t⦄, x s = .ok (k, t) → k ≤ t.frame.code.size) :
    Gives n o h js ⊥ (fun k => { places := [k] }) (fun _ => js) x := by
  intro s hs ho
  refine (hx s hs ho).eq.mono id ?_
  rintro k t ⟨⟨hp, ht⟩, hr⟩
  refine ⟨hp, { ht with places := fun k' hk => ?_ }⟩
  rcases mem_append.1 hk with hk | hk
  · exact mem_singleton.1 hk ▸ hplace hr
  · exact ht.places k' hk

theorem Gives.here :
    Gives n o h js ⊥ (fun k => { places := [k] }) (fun _ => js) here := by
  refine .placed (.idle fun s hs _ _ => ⟨_, s, rfl, .refl hs.table⟩) ?_
  intro s k t hr
  obtain ⟨hk, rfl⟩ := here_ok.1 hr
  exact hk ▸ le_rfl

theorem Behaves.safe (hx : Behaves n D x) : Safe n True h js D (fun _ => js) x := hx

/-- What acts for itself is safe in a construct whose scope is not the first one: no return in it is
at the top of the frame. -/
theorem Acts.safe (hx : Acts n D x) (hdeep : h.deep) : Safe n True h js D (fun _ => js) x := by
  intro s hs ho
  refine (hx s (.of_sound hs.toSound) ho).mono id ?_
  rintro a t ⟨hp, ht⟩
  have hreturns : t.frame.returnsAtTop = true → s.frame.returnsAtTop = true := fun h =>
    (hp.returns h).resolve_right (Nat.not_le.2 (hs.deep hdeep))
  exact ⟨hp.frame js hreturns, hs.framed hp ht.toSound fun _ => hreturns⟩

theorem Acts.framed (hx : Acts n D x) (hfresh : ¬ h.fresh) (hjs : js = [] ∨ n.logs = true) :
    Safe n True h js D (fun _ => js) x := by
  intro s hs ho
  refine (hx s (.of_sound hs.toSound) ho).mono id ?_
  rintro a t ⟨hp, ht⟩
  refine ⟨?_, hs.framed hp ht.toSound fun h => absurd h hfresh⟩
  rcases hjs with rfl | hlogs
  · exact hp
  · refine hp.rehold (fun _ hk => nomatch hk) (fun _ => .inl) rfl fun hl => ?_
    rw [hlogs] at hl
    cases hl

end

/-- Whether the operation can be written as it is, is no jump and holds no frame. -/
def Operation.isSettled : Operation → Bool
  | .unverified _ | .pathed .attributePush [] | .jump .. | .subroutine .. => false
  | _ => true

namespace Operation

theorem isWritable_of_isSettled (hop : op.isSettled = true) : op.isWritable = true := by
  unfold isWritable
  split
  · cases hop
  · cases hop
  · rfl

theorem not_jump_of_isSettled (hop : op.isSettled = true) (kind : Jump) (target : Option Nat) :
    op ≠ .jump kind target := by
  rintro rfl
  cases hop

theorem frames_of_isSettled (hop : op.isSettled = true) : op.frames = [] := by
  cases op with
  | subroutine => cases hop
  | _ => rfl

end Operation

section

variable {target k : Nat}

namespace Safe

theorem appended (line : UInt32) (hw : op.isWritable = true) (hf : op.frames = [])
    (hjump : ∀ kind target, op = .jump kind target → ∃ t ∈ h.places, target = some t)
    (hnames : ∀ y ∈ op.symbols, y ∈ h.names)
    (hx : ∀ s, ∃ a depth, x s = .ok (a, s.at (s.frame.write ⟨line, op⟩ depth))) :
    Clean n o h js x := by
  intro s hs _
  obtain ⟨a, depth, hr⟩ := hx s
  have hsound : Instruction.Sound s.symbols ⟨line, op⟩ :=
    .of_symbols line hw hf fun y hy => hs.names y (hnames y hy)
  have hloose : Instruction.isLoose ⟨line, op⟩ = false := by
    rw [Instruction.isLoose_of_frames hf, Bool.eq_false_iff]
    intro hu
    obtain ⟨kind, rfl⟩ := isUnaimed_iff.1 hu
    obtain ⟨t, -, ht⟩ := hjump kind none rfl
    cases ht
  have hp : ∀ ks, RunInvariant n ⊥ ks ks s (s.at (s.frame.write ⟨line, op⟩ depth)) := by
    refine fun ks => .push (fun _ hk => .inl hk) (fun _ _ => notMem_bot)
      ⟨0, by simp [hloose], fun _ _ => iff_of_false (Nat.lt_irrefl 0) notMem_bot⟩
      (fun kind t hop => ?_) fun _ f hmem => ?_
    · obtain ⟨t', hmem, ht⟩ := hjump kind _ hop
      exact hs.places t (Option.some.inj ht ▸ hmem)
    · rw [Instruction.frames, hf] at hmem
      cases hmem
  exact .of_ok hr ⟨hp js, hs.framed (hp []) (hs.toSound.push hsound) fun _ => id⟩

theorem add (hop : op.isSettled = true) (hnames : ∀ y ∈ op.symbols, y ∈ h.names) :
    Clean n o h js (Emit.add v op line) := by
  refine appended line (isWritable_of_isSettled hop) (frames_of_isSettled hop)
    (fun _ _ h => absurd h (not_jump_of_isSettled hop _ _)) hnames fun s => ?_
  obtain ⟨moves, hmoves⟩ := effect_of_isWritable v (isWritable_of_isSettled hop)
  exact ⟨_, _, add_ok.2 ⟨moves, hmoves, rfl, rfl⟩⟩

theorem emit (hop : op.isSettled = true) (hnames : ∀ y ∈ op.symbols, y ∈ h.names) :
    Clean n o h js (Emit.emit v op line) := discard (add hop hnames)

theorem plain (hop : op.isSettled = true) (hnames : op.symbols = []) :
    Clean n o h js (Emit.emit v op line) := by
  refine emit hop fun y hy => ?_
  rw [hnames] at hy
  exact nomatch hy

theorem untracked (hop : op.isSettled = true) (hnames : op.symbols = []) :
    Clean n o h js (Emit.emitUntracked op line) := by
  refine appended line (isWritable_of_isSettled hop) (frames_of_isSettled hop)
    (fun _ _ h => absurd h (not_jump_of_isSettled hop _ _)) (fun y hy => ?_)
    fun s => ⟨(), s.frame.depth, emitUntracked_ok.2 rfl⟩
  rw [hnames] at hy
  exact nomatch hy

theorem jump (kind : Jump) : Safe n o h js ⊥ (fun k => k :: js) (Emit.jump v kind line) := by
  intro s hs _
  have hr : Emit.jump v kind line s = .ok (s.frame.code.size, s.at
      (s.frame.write ⟨line, .jump kind none⟩ (s.frame.depth.follow kind.effect))) :=
    add_ok.2 ⟨_, rfl, rfl, rfl⟩
  have hp : RunInvariant n ⊥ js (s.frame.code.size :: js) s
      (s.at (s.frame.write ⟨line, .jump kind none⟩ (s.frame.depth.follow kind.effect))) := by
    refine .push (fun k hk => ?_) (fun _ _ => notMem_bot)
      ⟨0, ?_, fun _ _ => iff_of_false (Nat.lt_irrefl 0) notMem_bot⟩ (fun _ _ h => nomatch h)
      fun _ _ hf => nomatch hf
    · exact (mem_cons.1 hk).symm
    · simp [Instruction.isLoose, isUnaimed]
      omega
  have hnew : s.frame.code.size ∉ js := fun hk => Nat.lt_irrefl _ (hs.lt hk)
  refine .of_ok hr ⟨hp, hs.after hp (hs.toSound.push (.of_symbols line rfl rfl fun x hx => by cases hx))
    (fun _ => id) (nodup_cons.2 ⟨hnew, hs.nodup⟩) (fun k _ hk => ?_) fun k hk hn => ?_⟩
  · simp [Session.at, Array.getElem?_push, Nat.ne_of_lt (hs.lt hk)]
  · obtain rfl := (mem_cons.1 hk).resolve_right hn
    exact ⟨fun hm => Nat.lt_irrefl _ (hs.tidy.lt hm), ⟨line, .jump kind none⟩,
      by simp [Session.at], rfl⟩

theorem jumpBack (ht : target ∈ h.places) :
    Clean n o h js (Emit.add v (.jump .always (some target)) line) := by
  have hw : (Operation.jump .always (some target)).isWritable = true := rfl
  refine appended line hw rfl ?_ (fun y hy => nomatch hy) fun s => ?_
  · rintro _ _ ⟨⟩
    exact ⟨target, ht, rfl⟩
  · exact ⟨_, _, add_ok.2 ⟨_, rfl, rfl, rfl⟩⟩

theorem jumpTo (ht : target ∈ h.places) :
    Clean n o h js (Emit.jumpTo v target line) := discard (jumpBack ht)

theorem patch (hk : js.Perm (k :: ks)) (ht : target ∈ h.places) :
    Safe n o h js ⊥ (fun _ => ks) (patch k target) := by
  intro s hs _
  obtain ⟨t, hr, hp, ht⟩ := RunInvariant.patch (hs.perm hk) (hs.places target ht)
  exact .of_ok hr ⟨hp.permLeft hk.symm, ht⟩

theorem patchHere (hk : js.Perm (k :: ks)) : Safe n o h js ⊥ (fun _ => ks) (patchHere k) :=
  ownLearn .here fun _ => patch hk (by simp)

theorem patchAll (ks : List Nat) (ht : target ∈ h.places) :
    Safe n o h (ks ++ js) ⊥ (fun _ => js) (patchAll ks target) := by
  induction ks with
  | nil => exact pure ()
  | cons k ks ih => exact own (patch (.refl _) ht) fun _ => ih

theorem dropDepth (count : Int) : Clean n o h js (onFrame (dropDepth count)) :=
  idle fun _ hs _ _ => ⟨(), _, rfl, hs.table, fun _ hx => hx, rfl, rfl, rfl, rfl,
    ⟨[], .none rfl rfl rfl⟩, rfl, rfl⟩

theorem pop : Clean n o h js (Emit.pop v) := plain rfl rfl

theorem assign : Clean n o h js (Emit.assign v) := plain rfl rfl

theorem assignPop : Clean n o h js (Emit.assignPop v) :=
  ite (plain rfl rfl) (own assign fun _ => pop)

theorem stateOperation_isSettled (state : RunState) :
    (Emit.stateOperation v state).isSettled = true ∧ (Emit.stateOperation v state).symbols = [] := by
  unfold Emit.stateOperation
  split <;> exact ⟨rfl, rfl⟩

theorem setState (state : RunState) : Clean n o h js (Emit.setState v state) :=
  plain (stateOperation_isSettled state).1 (stateOperation_isSettled state).2

theorem handOff (state : RunState) : Clean n o h js (Emit.handOff v state) :=
  own (untracked (stateOperation_isSettled state).1 (stateOperation_isSettled state).2)
    fun _ => dropDepth 1

theorem bareReturn : Clean n o h js (Emit.bareReturn v) :=
  untracked (stateOperation_isSettled .return).1 (stateOperation_isSettled .return).2

theorem afterCall (loc : Loc) : Clean n o h js (Emit.afterCall v loc) :=
  ite (plain rfl rfl) (pure ())

end Safe

end

/-- The action is safe for itself, and the frame returns after it. -/
def Concludes (n : Regime) (o : Prop) (D : Trail) {α : Type} (x : Emit α) : Prop :=
  ∀ s, s.Holds {} [] → (o → s.frame.scopes ≠ []) →
    Answers (s.Blames n D) (fun _ t => (RunInvariant n D [] [] s t ∧ t.Sound) ∧
      (n.logs = false → s.frame.Exits [] → t.frame.finish.Returns)) (x s)

namespace Concludes

theorem of_safe (hx : Safe n o {} [] D (fun _ => []) x)
    (hr : ∀ ⦃s a t⦄, x s = .ok (a, t) → s.frame.Exits [] → t.frame.finish.Returns) :
    Concludes n o D x := by
  intro s hs ho
  refine (hx s hs ho).eq.mono id ?_
  rintro a t ⟨⟨hp, ht⟩, hok⟩
  exact ⟨⟨hp, ht.toSound⟩, fun _ => hr hok⟩

theorem after (hx : Safe n o {} [] D (fun _ => []) x) (hf : ∀ a, Concludes n o ⊥ (f a)) :
    Concludes n o D (x >>= f) := by
  intro s hs ho
  refine (hx s hs ho).bind ?_
  rintro a r ⟨hp, hr⟩
  refine (hf a r hr fun h => hp.scopes_ne (ho h)).mono (fun ⟨f, _, hb⟩ => (notMem_bot hb).elim) ?_
  rintro b t ⟨⟨hp', ht⟩, hreturns⟩
  refine ⟨⟨?_, ht⟩, fun hl he => hreturns hl (hp.exits hl he)⟩
  have := hp.trans hp'
  rwa [sup_bot_eq] at this

theorem stateOperation_isReturn (v : Version) : (stateOperation v .return).isReturn = true := by
  unfold stateOperation
  split <;> rfl

theorem bareReturn : Concludes n o ⊥ (bareReturn v) := by
  refine of_safe .bareReturn fun s a t hr he => ?_
  obtain rfl := emitUntracked_ok.1 hr
  exact he.returns_push rfl (stateOperation_isReturn v)

theorem handOff : Concludes n o ⊥ (handOff v .return) := by
  refine of_safe (.handOff _) fun s a t hr he => ?_
  obtain ⟨_, r, hemit, hdrop⟩ := bind_ok.1 hr
  obtain rfl := emitUntracked_ok.1 hemit
  obtain ⟨d, hd, rfl⟩ := onFrame_ok.1 hdrop
  cases hd
  exact he.returns_push rfl (stateOperation_isReturn v)

theorem emptyReturn : Concludes n o ⊥ (Emit.emptyReturn v) := by
  unfold Emit.emptyReturn
  split
  · exact after (.plain rfl rfl) fun _ => handOff
  · exact bareReturn

theorem frameExit : Concludes n o ⊥ (Emit.frameExit v) := by
  intro s hs ho
  unfold Emit.frameExit
  show Answers _ _ ((if s.frame.returnsAtTop then _ else _ : Emit Unit) s)
  split
  · rename_i htop
    exact ⟨⟨.refl s, hs.toSound⟩, fun _ he => (he.returned htop).imp fun _ hr => hr.1⟩
  · exact emptyReturn s hs ho

end Concludes

theorem Session.Sound.notes_of_atTop (hs : s.Sound) (htop : s.frame.atTop = true) :
    s.frame.sketch.notes = [] := by
  obtain ⟨c, hc⟩ := length_eq_one_iff.1 (beq_iff_eq.1 htop)
  have hkind : c.kind = .block := hs.base c.kind (by simp [hc])
  have hmarks : s.frame.sketch.marks = [c.mark] := by simp [sketch, marks, hc]
  have hmem : c.mark ∈ s.frame.sketch.marks := by simp [hmarks]
  rw [Sketch.notes, hmarks, flatMap_singleton, Mark.notes,
    hs.tidy.breaks c.mark hmem (by rw [Scope.mark, hkind]; rfl),
    hs.tidy.continues c.mark hmem (by rw [Scope.mark, hkind]; rfl), append_nil]

theorem Concludes.marked {x : Emit Unit} (hx : Concludes n True D x) :
    Acts n D (x >>= fun _ => markReturn) := by
  intro s hs ho
  refine (hx s hs ho).bind ?_
  rintro ⟨⟩ t ⟨⟨hp, ht⟩, hreturns⟩
  show Answers _ _ (.ok ((), if t.frame.atTop then _ else t))
  split
  · rename_i htop
    have hlength : s.frame.scopes.length ≤ 1 := by
      rw [hp.length]
      exact Nat.le_of_eq (beq_iff_eq.1 htop)
    refine ⟨{ hp with
      stays := ⟨hp.stays.around, hp.stays.kinds⟩
      returns := fun _ => .inr hlength
      exits := fun hl he => ?_ }, .of_sound ⟨ht.table,
        ⟨ht.frame.source, ht.frame.parameters, ht.frame.captured, ht.frame.code⟩, ht.tidy, ht.base⟩⟩
    have hexits := hp.exits hl he
    have hmarked := (hreturns hl he).congr (g := { t.frame with returnsAtTop := true }.finish) rfl
    refine ⟨hexits.bounded, hexits.frames, fun _ => hmarked.imp fun r hr => ⟨hr, fun k hk => ?_⟩⟩
    rcases hk with hk | hk
    · cases hk
    · exact absurd (ht.notes_of_atTop htop ▸ hk) not_mem_nil
  · exact ⟨hp, .of_sound ht⟩

/-- The action looks up names and nothing else. -/
def Interns {α : Type} (names : α → List Symbol) (y : Emit α) : Prop :=
  ∀ s, s.symbols.Proper → Answers False (fun a t => t = { s with symbols := t.symbols } ∧
    t.symbols.Proper ∧ (∀ x, s.symbols.Lists x → t.symbols.Lists x) ∧
    ∀ x ∈ names a, t.symbols.Lists x) (y s)

namespace Interns

variable {names' : β → List Symbol}

theorem gives (hy : Interns names y) :
    Gives n o h js ⊥ (fun a => { names := names a }) (fun _ => js) y := by
  intro s hs _
  refine (hy s hs.table).mono False.elim ?_
  rintro a t ⟨ht, hproper, hlists, hnames⟩
  have hidle : s.Idles t := .of_frame hproper hlists (by rw [ht]) (by rw [ht])
  have hholds := hidle.holds hs
  refine ⟨hidle.runInvariant js, { hholds with names := fun x hx => ?_ }⟩
  rcases mem_append.1 hx with hx | hx
  · exact hnames x hx
  · exact hholds.names x hx

theorem pure (a : α) (ha : names a = []) : Interns names (Pure.pure a : Emit α) := by
  refine fun s hs => ⟨rfl, hs, fun _ hx => hx, fun x hx => ?_⟩
  rw [ha] at hx
  exact nomatch hx

theorem bind (hy : Interns names y)
    (hf : ∀ a, Interns (fun b => (names' b).filter (· ∉ names a)) (f a)) :
    Interns names' (y >>= f) := by
  intro s hs
  refine (hy s hs).bind ?_
  rintro a r ⟨hr, hproper, hlists, hnames⟩
  refine (hf a r hproper).mono id ?_
  rintro b t ⟨ht, hproper', hlists', hnames'⟩
  refine ⟨by rw [ht, hr], hproper', fun x hx => hlists' x (hlists x hx), fun x hx => ?_⟩
  by_cases hmem : x ∈ names a
  · exact hlists' x (hnames x hmem)
  · exact hnames' x (by simpa using ⟨hx, hmem⟩)

theorem reject {loc : Loc} {c : Cause} : Interns names (reject loc c) := fun _ _ => trivial

theorem ite [Decidable c] (hx : Interns names x) (hy : Interns names y) :
    Interns names (if c then x else y) := by
  split
  · exact hx
  · exact hy

theorem interned (name : String) (bytePerChar : Bool) :
    Interns (fun x => [x]) (interned fun t => t.intern name bytePerChar) := by
  intro s hs
  refine ⟨rfl, hs.intern name bytePerChar, fun x hx => SymbolTable.lists_intern _ _ hx, fun x hx => ?_⟩
  obtain rfl := mem_singleton.1 hx
  exact hs.lists_new name bytePerChar

theorem symbol (name : String) : Interns (fun x => [x]) (symbol name) := interned _ _

theorem plainSymbol (name : String) : Interns (fun x => [x]) (plainSymbol name) := interned _ _

theorem stringSymbol (content : String) (bytePerChar : Bool) :
    Interns (fun x => [x]) (stringSymbol content bytePerChar) := interned _ _

theorem operatorSymbol (internal : Bool) (text : String) :
    Interns (fun x => [x]) (operatorSymbol internal text) := ite (symbol _) (plainSymbol _)

theorem temporary (stem : String) : Interns (fun x => [x]) (temporary stem) := by
  intro s hs
  let r : Session := { s with symbols := (s.symbols.nextTemporary stem).2 }
  refine (plainSymbol (s.symbols.nextTemporary stem).1 r ⟨hs.ids⟩).mono id ?_
  rintro x t ⟨ht, hproper, hlists, hx⟩
  exact ⟨by rw [ht], hproper, hlists, hx⟩

theorem symbols (l : List String) : Interns (fun xs => xs) (l.mapM Emit.symbol) := by
  induction l with
  | nil => exact pure [] rfl
  | cons a l ih =>
    rw [mapM_cons]
    refine bind (symbol a) fun x => ?_
    have hrest : Interns (fun xs => xs) (l.mapM Emit.symbol) := ih
    refine bind hrest fun xs => pure _ ?_
    simp only [filter_filter, filter_eq_nil_iff, mem_cons]
    rintro y (rfl | hy) <;> simp_all

theorem splitPath (name : String) : Interns (fun p => p.2 :: p.1) (Emit.splitPath name) := by
  unfold Emit.splitPath
  refine bind (symbol name) fun full => ?_
  split
  · refine bind (symbols _) fun parts => pure _ ?_
    simp only [filter_filter, filter_eq_nil_iff, mem_cons]
    rintro y (rfl | hy) <;> simp_all
  · exact pure _ (by simp)

theorem pathSymbols (name : String) : Interns (fun xs => xs) (pathSymbols name) := by
  refine bind (splitPath name) fun p => pure _ ?_
  simp only [filter_eq_nil_iff, mem_append, mem_cons]
  rintro y (hy | hy) <;> simp_all

end Interns

namespace Safe

theorem looked (hy : Interns names y)
    (hf : ∀ a, Safe n o (h.add { names := names a }) js D js' (f a)) :
    Safe n o h js D js' (y >>= f) := ownLearn hy.gives hf

theorem text (loc : Loc) (content : String) (hexEscaped : Bool) :
    Clean n o h js (Emit.text v loc content hexEscaped) :=
  ite (plain rfl rfl) (looked (.stringSymbol _ _) fun x =>
    emit rfl (by simp))

end Safe

theorem Draft.resolve_total (hd : d.scopes ≠ []) (x : Symbol) (access : Access) :
    ∃ i e, resolve x access d = .ok (i, e) := by
  obtain ⟨c, cs, hscopes⟩ := exists_cons_of_ne_nil hd
  have hlocal : ∃ i e, useLocal x d = .ok (i, e) := by
    unfold useLocal
    simp only [hscopes]
    split <;> exact ⟨_, _, rfl⟩
  have hstatic : ∃ i e, useStatic x d = .ok (i, e) := by
    unfold useStatic
    simp only [hscopes]
    split <;> exact ⟨_, _, rfl⟩
  have hcapture : ∃ i e, capture x d = .ok (i, e) := by
    unfold capture
    split <;> exact ⟨_, _, rfl⟩
  cases access <;> simp only [resolve]
  case declare => exact hlocal
  case writeStatic => exact hstatic
  all_goals
    split
    · exact hcapture
  case readStatic => exact hstatic
  all_goals
    split
    · exact hlocal
    · exact hstatic

theorem Session.Idles.of_resolves {ds : List Deed} (hs : s.Sound) (hr : s.frame.Resolves d)
    (hmarks : d.marks = s.frame.marks) (hchange : s.frame.Change s.symbols.Lists d ds) :
    s.Idles (s.at d) :=
  ⟨hs.table, fun _ hx => hx, hr.code, hmarks, congrArg (·.source) hr, congrArg (·.parameters) hr,
    ⟨ds, hchange⟩, rfl, congrArg (·.returnsAtTop) hr⟩

section

variable {x : Symbol} {loc : Loc} {use : Access}

namespace Gives

theorem resolve (ho : o) (hx : x ∈ h.names) (huse : use ≠ .writeStatic) :
    Gives n o h js ⊥ (fun _ => { locals := if use = .declare then [x] else [] }) (fun _ => js)
      (onFrame (resolve x use)) := by
  intro s hs hscopes
  obtain ⟨i, d, hd⟩ := resolve_total (hscopes ho) x use
  obtain ⟨hr, houtcome, hchange⟩ := resolve_ok (hs.names x hx) huse hd
  have hidle : s.Idles (s.at d) := by
    have hmarks := (resolve_neutral x use hd).marks
    rcases hchange with hchange | ⟨-, hchange⟩
    · exact .of_resolves hs.toSound hr hmarks hchange
    · exact .of_resolves hs.toSound hr hmarks hchange
  have hholds := hidle.holds hs
  refine .of_ok (onFrame_ok.2 ⟨d, hd, rfl⟩)
    ⟨hidle.runInvariant js, { hholds with locals := fun y hy => ?_ }⟩
  rcases mem_append.1 hy with hy | hy
  · split at hy <;> rename_i hdeclare
    · obtain rfl := mem_singleton.1 hy
      cases houtcome with
      | declared _ hi => exact Option.isSome_iff_exists.2 ⟨_, hi⟩
      | captured hne | «local» hne | static hne => exact absurd hdeclare hne
    · exact nomatch hy
  · exact hholds.locals y hy

theorem accessNames (hx : x ∈ h.names) :
    Gives n o h js ⊥ (fun l => { names := l }) (fun _ => js) (accessNames x) := by
  intro s hs _
  have hidle := Session.Idles.refl hs.table
  refine .of_ok rfl ⟨hidle.runInvariant js, { hs with names := fun y hy => ?_ }⟩
  rcases mem_append.1 hy with hy | hy
  · split at hy <;> simp only [mem_cons, not_mem_nil, or_false, or_self] at hy <;>
      exact hy ▸ hs.names x hx
  · exact hs.names y hy

theorem access {reach : Reach} (ho : o) (hx : x ∈ h.names) (huse : use ≠ .writeStatic) :
    Gives n o h js ⊥ (fun _ => { locals := if use = .declare then [x] else [] }) (fun _ => js)
      (access v reach x use line) :=
  before (resolve ho hx huse) fun _ => .ownLearn (accessNames hx) fun _ =>
    .emit rfl fun _ hy => mem_append_left _ hy

theorem pushKnown (ho : o) (hx : x ∈ h.names) (hname : Symbol.canonical x.name = x.name) :
    Gives n o h js ⊥ (fun _ => { locals := [x] }) (fun _ => js) (pushName v x.name loc true) := by
  intro s hs hscopes
  have hfound : symbol x.name s = .ok (x, s) := by
    have hfind := SymbolTable.find?_of_lists (hs.names x hx)
    simp only [symbol, interned, SymbolTable.internCanonical, hname, SymbolTable.intern_of_some hfind]
  have hfirst : Answers (s.Blames n ⊥) (fun y r => y = x ∧ r = s) (symbol x.name s) :=
    .of_ok hfound ⟨rfl, rfl⟩
  refine hfirst.bind ?_
  rintro _ _ ⟨rfl, rfl⟩
  exact access ho hx (by simp) _ hs hscopes

theorem temporary {new : β → Known} {stem : String} {f : Symbol → Emit β}
    (hf : ∀ x, Symbol.canonical x.name = x.name →
      Gives n o (h.add { names := [x] }) js D new js' (f x)) :
    Gives n o h js D new js' (temporary stem >>= f) := by
  have := bindWhere (Interns.temporary stem).gives
    (fun _ _ _ hr => (temporary_ok hr).1.canonical) hf
  rwa [bot_sup_eq] at this

theorem newTemporary {value : Emit Unit} (stem : String) (loc : Loc) (hvalue : Behaves n D value) :
    Gives n True h js D (fun x => { names := [x], locals := [x] }) (fun _ => js)
      (newTemporary v value stem loc) := by
  refine temporary fun x hname => ?_
  have hpush {k : Known} (hx : x ∈ k.names) : Gives n True k js ⊥ (fun _ => { locals := [x] })
      (fun _ => js) (pushName v x.name loc true) := pushKnown trivial hx hname
  have hlast {k : Known} (hnames : x ∈ k.names) (hlocals : x ∈ k.locals) :
      Gives n True k js ⊥ (fun y : Symbol => { names := [y], locals := [y] }) (fun _ => js) (do
        assignPop v
        Pure.pure x) :=
    own Safe.assignPop fun _ => pure (by simpa) (by simpa) fun _ hk => nomatch hk
  split
  · exact last (Behaves.safe hvalue) fun _ => own (hpush (by simp)) fun _ =>
      hlast (by simp) (by simp)
  · exact own (hpush (by simp)) fun _ => last (Behaves.safe hvalue) fun _ =>
      hlast (by simp) (by simp)

end Gives

namespace Safe

theorem readName (ho : o) (name : String) (loc : Loc) : Clean n o h js (readName v name loc) :=
  looked (.symbol name) fun _ => (Gives.access ho (by simp) (by simp)).safe

theorem pushName (ho : o) (name : String) (loc : Loc) (declares : Bool) :
    Clean n o h js (pushName v name loc declares) :=
  looked (.symbol name) fun _ => (Gives.access ho (by simp) (by split <;> simp)).safe

theorem declareName (ho : o) (name : String) : Clean n o h js (declareName name) :=
  looked (.symbol name) fun _ => discard (Gives.resolve ho (by simp) (by simp)).safe

theorem readTemporary (hx : x ∈ h.names) (hlocal : x ∈ h.locals) :
    Clean n o h js (readTemporary v x line) := by
  have hindex : Clean n o h js (onFrame (localIndex x)) := by
    intro s hs _
    obtain ⟨i, hi⟩ := Option.isSome_iff_exists.1 (hs.locals x hlocal)
    have hidle := Session.Idles.refl hs.table
    have hr : onFrame (localIndex x) s = .ok (i, s) :=
      onFrame_ok.2 ⟨s.frame, by rw [localIndex, hi], rfl⟩
    exact .of_ok hr ⟨hidle.runInvariant js, hs⟩
  exact own hindex fun _ => emit rfl (by simpa using hx)

theorem member (ho : o) (reach : Reach) (parts : List String) (loc : Loc) :
    Clean n o h js (member v reach parts loc) := by
  refine looked (.splitPath _) fun ⟨parts, full⟩ => ?_
  refine own (Gives.resolve ho (by simp) (by simp)).safe fun index => ?_
  refine emit rfl fun y hy => ?_
  simp only [symbols, mem_append, mem_singleton] at hy
  simp only [Known.add, mem_append, mem_cons]
  exact .inl hy.symm

theorem selfValue (loc : Loc) : Clean n o h js (selfValue v loc) :=
  own require fun _ => looked (.symbol _) fun _ =>
    emit rfl (by simp)

theorem addMember (ho : o) (hx : x ∈ h.names) :
    Clean n o h js (Emit.addMember x) := by
  refine idle fun s hs hscopes hnames => ?_
  obtain ⟨c, cs, hc⟩ := exists_cons_of_ne_nil (hscopes ho)
  let d : Draft := { s.frame with
    slots := (s.frame.slots.addStatic (some x)).2, scopes := c.addStatic x :: cs }
  have hr : Emit.addMember x s = .ok ((), s.at d) :=
    onFrame_ok.2 ⟨d, by rw [Draft.addMember, hc], rfl⟩
  obtain ⟨hbare, hbare'⟩ := bare_addStatic (x := x) (e := d) hc rfl
  refine ⟨(), s.at d, hr, hs.table, fun _ hx => hx, rfl, ?_, rfl, rfl,
    ⟨_, .addMember (hnames x hx) rfl hbare hbare' rfl⟩, rfl, rfl⟩
  simp [d, Session.at, marks, hc, Scope.mark, Scope.addStatic]

theorem addStatics (symbols : List (Option Symbol)) :
    Clean n o h js (onFrame (addStatics symbols)) :=
  idle fun _ hs _ _ => ⟨(), _, rfl, hs.table, fun _ hx => hx, rfl, rfl, rfl, rfl,
    ⟨_, .addStatics rfl rfl rfl⟩, rfl, rfl⟩

end Safe

end

end Adhoc
