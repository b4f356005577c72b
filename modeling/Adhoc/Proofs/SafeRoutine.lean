import Adhoc.Proofs.SafeExpr

namespace Adhoc

open Emit List Draft Trail Instruction Session

variable {js : List Nat} {v : Version} {n : Regime} {cs : List ExprCode} {es : List Expr}
  {lib : Library} {h : Known}

section

variable {e left right : Expr} {c l r : ExprCode}

theorem parameters_safe (h : Forall₂ (ExprSafe n lib v) es cs) :
    Prepares n (.all lib v (es.map .expr)) (parameters cs) := by
  induction h with
  | nil =>
    rw [List.map_nil, Trail.all_nil]
    exact .pure fun _ _ h => ⟨h, rfl⟩
  | cons he _ ih =>
    rw [List.map_cons, Trail.all_cons, ← Trail.all_singleton]
    exact .bind he.param ih

end

namespace Trail

variable {D : Trail} {f : String} {e : Slip}

/-- What a subroutine does outside of its frame while its body is lowered. -/
def kept (D : Trail) : Trail := fun f => {e | e ∈ D f ∧ e.isShared = true ∧ e ≠ .strays}

/-- The jumps that stray in its frame. -/
def strayed (D : Trail) : Trail := fun f => {e | e ∈ D f ∧ e = .strays}

theorem kept_sup_strayed : D.kept ⊔ D.strayed = D.shared := by
  funext f
  ext e
  constructor
  · rintro (⟨h, hs, -⟩ | ⟨h, rfl⟩)
    · exact ⟨h, hs⟩
    · exact ⟨h, rfl⟩
  · rintro ⟨h, hs⟩
    by_cases he : e = .strays
    · exact .inr ⟨h, he⟩
    · exact .inl ⟨h, hs, he⟩

theorem names_kept : D.kept.names = D.names := by
  ext name
  exact exists_congr fun f => ⟨fun h => h.1, fun h => ⟨h, rfl, by simp⟩⟩

end Trail

/-- The frame of a subroutine is done, and its last scope is closed. -/
structure Filled (n : Regime) (D : Trail) (s : Session) (child : Draft) (w : Session) : Prop where
  sound : w.Sound
  lists : ∀ x, s.symbols.Lists x → w.symbols.Lists x
  scopes : w.frame.scopes = []
  source : w.frame.sourceName = child.sourceName ∨ w.frame.sourceName ∈ D.names
  folder : w.includeFolder = s.includeFolder ∨
    s.includeFolder = none ∧ ∃ f, w.includeFolder = some f ∧ (s.at child).Finds D f
  loose : ∀ f, w.Looks f → (0 < w.frame.loose ↔ .strays ∈ D f)
  exits : n.logs = false → w.frame.Exits []

/-- The action fills the frame of a subroutine, up to a return. -/
def Fills (n : Regime) (D : Trail) (x : Emit Unit) : Prop :=
  ∀ ⦃s child⦄, s.Sound → child.Blank s.symbols →
    Answers ((s.at child).Blames n D)
      (fun _ w => Filled n D s child w ∧ (n.logs = false → w.frame.finish.Returns)) (x (s.at child))

section

variable {α : Type} {D E P : Trail} {f : Draft → Emit Unit} {child d : Draft} {x : Emit Unit}

theorem Draft.noted_nil (h : d.scopes = []) : d.noted = 0 := by
  simp [noted, sketch, marks, h, Sketch.notes]

theorem Draft.noted_marks {kind : ScopeKind} (h : d.marks = [⟨kind, [], []⟩]) : d.noted = 0 := by
  simp [noted, sketch, h, Sketch.notes, Mark.notes]

theorem RunInvariant.leftFrame {s w : Session} (hp : RunInvariant n D [] [] (s.at child) w) (hw : w.Sound)
    (hc : child.Blank s.symbols) :
    ∃ t, leaveScope v false w = .ok ((), t) ∧ Filled n D s child t ∧ t.frame.code = w.frame.code := by
  have hmarks : w.frame.marks = [⟨.block, [], []⟩] := by
    have hgrow := hp.marks
    rw [show (s.at child).frame.marks = [⟨.block, [], []⟩] from hc.marks] at hgrow
    generalize hms : w.frame.marks = ms at hgrow
    cases hgrow with
    | @cons _ m _ _ hm hrest =>
      cases hrest
      have hmem : m ∈ w.frame.sketch.marks := by simp [Draft.sketch, hms]
      obtain ⟨kind, breaks, continues⟩ := m
      obtain rfl : kind = .block := hm.kind
      obtain rfl : breaks = [] := hw.tidy.breaks _ hmem rfl
      obtain rfl : continues = [] := hw.tidy.continues _ hmem rfl
      rfl
  obtain ⟨c, hscopes⟩ : ∃ c, w.frame.scopes = [c] := by
    rw [Draft.marks, map_eq_singleton_iff] at hmarks
    obtain ⟨c, hc, -⟩ := hmarks
    exact ⟨c, hc⟩
  have hempty : (w.closed (Draft.left v Slots.freeLocal c.locals w.frame.slots)).frame.scopes = [] := by
    simp [Session.closed, Session.at, hscopes]
  refine ⟨w.closed (Draft.left v Slots.freeLocal c.locals w.frame.slots), ?_, ⟨?_, hp.lists, hempty,
    hp.source, hp.folder, fun f hf => ?_, fun hl => ?_⟩, rfl⟩
  · rw [leaveScope, popScope_freed hscopes]
    rfl
  · refine ⟨hw.table, ⟨hw.frame.source, hw.frame.parameters, hw.frame.captured, hw.frame.code⟩, ?_, ?_⟩
    · exact Sketch.Tidy.of_no_marks (by simp [Draft.sketch, Draft.marks, hempty])
    · simp [hempty]
  · obtain ⟨m, hm, hstray⟩ := hp.balance
    have hchild : (s.at child).frame.loose = 0 := by simp [Session.at, Draft.loose, hc.code]
    have hnone : (s.at child).frame.noted = 0 := noted_marks hc.marks
    rw [hchild, hnone, noted_marks hmarks] at hm
    rw [← hstray f hf, show (w.closed _).frame.loose = w.frame.loose from rfl]
    omega
  · refine (hp.exits hl hc.exits).congr rfl id fun k hk => ?_
    simp [Draft.sketch, Draft.marks, Sketch.notes, hempty] at hk

theorem Filled.andThen {s w : Session} (hw : Filled n D s child w) (hx : Concludes n False ⊥ x) :
    Answers ((s.at child).Blames n D)
      (fun _ t => Filled n D s child t ∧ (n.logs = false → t.frame.finish.Returns)) (x w) := by
  refine (hx w (.of_sound hw.sound) False.elim).mono (fun ⟨f, _, hb⟩ => (notMem_bot hb).elim) ?_
  rintro a t ⟨⟨hp, ht⟩, hreturns⟩
  have hscopes : t.frame.scopes = [] := by
    have := hp.kinds
    rwa [hw.scopes, map_nil, eq_comm, map_eq_nil_iff] at this
  have hnone : ∀ {name}, name ∉ (⊥ : Trail).names := fun ⟨_, hn⟩ => notMem_bot hn
  have hsource : t.frame.sourceName = w.frame.sourceName := hp.source.resolve_right hnone
  refine ⟨⟨ht, fun y hy => hp.lists y (hw.lists y hy), hscopes, hsource ▸ hw.source, ?_,
    fun f hf => ?_, fun hl => hp.exits hl (hw.exits hl)⟩, fun hl => hreturns hl (hw.exits hl)⟩
  · rcases hp.folder with hf | ⟨hf, g, hg, hfinds⟩
    · exact hf ▸ hw.folder
    · obtain ⟨-, name, hname, rfl⟩ := hfinds.resolve_left (by simp [hf])
      obtain rfl := hname.resolve_right hnone
      rcases hw.folder with hs | ⟨-, g', hg', -⟩
      · rw [hs] at hf
        exact .inr ⟨hf, _, hg, .inr ⟨hf, _, hw.source, rfl⟩⟩
      · rw [hf] at hg'
        cases hg'
  · obtain ⟨m, hm, hstray⟩ := hp.balance
    have hzero : ¬ 0 < m := fun hm => notMem_bot ((hstray f hf).1 hm)
    rw [noted_nil hw.scopes, noted_nil hscopes] at hm
    rw [← hw.loose f (hp.looks hf)]
    simp only [length_nil] at hm
    omega

namespace Fills

theorem body (hx : Concludes n True D x) : Fills n D (do
    x
    leaveScope v false) := by
  intro s child hs hc
  have hchild : (s.at child).Sound := ⟨hs.table, hc.sound, hc.tidy, hc.base⟩
  refine (hx _ (.of_sound hchild) fun _ => hc.scopes_ne).bind ?_
  rintro a w ⟨⟨hp, hw⟩, hreturns⟩
  obtain ⟨t, hr, ht, hcode⟩ := hp.leftFrame (v := v) hw hc
  exact .of_ok hr ⟨ht, fun hl => (hreturns hl hc.exits).congr (congrArg Array.toList hcode)⟩

theorem named (hx : Acts n D x) : Fills n D (do
    x
    leaveScope v false
    frameExit v) := by
  intro s child hs hc
  have hchild : (s.at child).Sound := ⟨hs.table, hc.sound, hc.tidy, hc.base⟩
  refine (hx _ (.of_sound hchild) fun _ => hc.scopes_ne).bind ?_
  rintro a w ⟨hp, hw⟩
  obtain ⟨t, hr, ht, -⟩ := hp.leftFrame (v := v) hw.toSound hc
  have hleft : Answers ((s.at child).Blames n D) (fun _ w => Filled n D s child w)
      (leaveScope v false w) := .of_ok hr ht
  exact hleft.bind fun _ _ ht => ht.andThen .frameExit

end Fills

/-- A finished draft, and whether a jump has strayed in it. -/
structure Draft.Done (n : Regime) (D : Trail) (s : Session) (d : Draft) : Prop where
  sound : d.Sound s.symbols
  loose : ∀ f, s.Looks f → (0 < d.loose ↔ .strays ∈ D f)
  returns : n.logs = false → ∀ f ∈ d.finish.preorder, f.Returns

/-- The action gets the draft of a subroutine that was begun where the run began. -/
def Defining (n : Regime) (h : Known) (D : Trail) (f : Draft → Emit Unit) : Prop :=
  ∀ ⦃r s child P js⦄, RunInvariant n P js js r s → s.Holds h js → s.frame.scopes ≠ [] →
    child.Blank s.symbols → child.source = r.frame.source →
    Answers (r.Blames n (P ⊔ D)) (fun _ t => RunInvariant n (P ⊔ D) js js r t ∧ t.Holds h js) (f child s)

/-- The action gets the finished draft and puts it into the code. -/
def Finishing (n : Regime) (h : Known) (D : Trail) (f : Draft → Emit Unit) : Prop :=
  ∀ ⦃r s d P js⦄, RunInvariant n P js js r s → s.Holds h js → s.frame.scopes ≠ [] → d.Done n D s →
    Answers (r.Blames n (P ⊔ D.strayed))
      (fun _ t => RunInvariant n (P ⊔ D.strayed) js js r t ∧ t.Holds h js) (f d s)

namespace Finishing

theorem own {x : Draft → Emit Unit} (hx : ∀ d {js}, Clean n True h js (x d))
    (hf : Finishing n h D f) : Finishing n h D fun d => x d >>= fun _ => f d := by
  intro r s d P js hp hs ho hd
  refine ((hx d s hs fun _ => ho).mono (fun ⟨g, _, hb⟩ => (notMem_bot hb).elim)
    fun _ _ h => h).bind ?_
  rintro a t ⟨hp', ht⟩
  have hinvariant : RunInvariant n P js js r t := by
    have := hp.trans hp'
    rwa [sup_bot_eq] at this
  exact hf hinvariant ht (hp'.scopes_ne ho)
    ⟨hd.sound.mono hp'.lists, fun f hf => hd.loose f (hp'.looks hf), hd.returns⟩

theorem emit {name : Option Symbol} {isMethod : Bool} {line : UInt32}
    (hname : ∀ y ∈ name.toList, y ∈ h.names) :
    Finishing n h D fun d => Emit.emit v (.subroutine name d.finish isMethod) line := by
  intro r s d P js hp hs ho hd
  have hr : ∃ depth, Emit.emit v (.subroutine name d.finish isMethod) line s =
      .ok ((), s.at (s.frame.write ⟨line, .subroutine name d.finish isMethod⟩ depth)) :=
    ⟨_, discard_ok.2 ⟨_, add_ok.2 ⟨_, rfl, rfl, rfl⟩⟩⟩
  obtain ⟨depth, hr⟩ := hr
  have hins : Instruction.Sound s.symbols ⟨line, .subroutine name d.finish isMethod⟩ :=
    ⟨fun y hy => hs.names y (hname y hy), rfl, hd.sound.finish⟩
  have hloose : isLoose ⟨line, .subroutine name d.finish isMethod⟩ = true ↔
      0 < d.loose := by
    rw [loose_pos]
    rfl
  have hpush : ∀ ks, RunInvariant n D.strayed ks ks s
      (s.at (s.frame.write ⟨line, .subroutine name d.finish isMethod⟩ depth)) := by
    refine fun ks => .push (fun _ => .inl) (fun f label hl => nomatch hl.2)
      ⟨if isLoose _ = true then 1 else 0, Nat.add_comm _ _, fun f hf => ?_⟩
      (fun _ _ h => nomatch h) hd.returns
    have : .strays ∈ D.strayed f ↔ .strays ∈ D f := and_iff_left rfl
    rw [this, ← hd.loose f hf, ← hloose]
    split <;> simp_all
  exact .of_ok hr ⟨hp.trans (hpush js), hs.framed (hpush []) (hs.toSound.push hins) fun _ => id⟩

end Finishing

namespace Defining

theorem learn {new : α → Known} {result : α → Prop} {x : Emit α} {f : α → Draft → Emit Unit}
    (hx : ∀ {js}, Gives n True h js E new (fun _ => js) x)
    (hresult : ∀ ⦃s a t⦄, x s = .ok (a, t) → result a)
    (hf : ∀ a, result a → Defining n (h.add (new a)) D (f a)) :
    Defining n h (E ⊔ D) fun child => x >>= fun a => f a child := by
  intro r s child P js hp hs ho hc hsource
  rw [← sup_assoc]
  refine ((hx s hs fun _ => ho).eq.mono (fun hb => ?_) fun _ _ h => h).bind ?_
  · exact (hp.blames hb).mono le_sup_left
  · rintro a t ⟨⟨hp', ht⟩, ha⟩
    refine (hf a (hresult ha) (hp.trans hp') ht (hp'.scopes_ne ho) (hc.mono hp'.lists) hsource).mono id ?_
    exact fun _ _ h => ⟨h.1, h.2.forget⟩

theorem own {x : Emit α} {f : α → Draft → Emit Unit}
    (hx : ∀ {js}, Clean n True h js x) (hf : ∀ a, Defining n h D (f a)) :
    Defining n h D fun child => x >>= fun a => f a child := by
  have := learn hx (fun _ _ _ _ => trivial) fun a _ => hf a
  rwa [bot_sup_eq] at this

theorem prepare {x : Draft → Emit Draft} (hx : Prepares n E x) (hf : Defining n h D f) :
    Defining n h (E ⊔ D) fun child => x child >>= f := by
  intro r s child P js hp hs ho hc hsource
  rw [← sup_assoc]
  refine ((hx hs ho hc).mono (fun hb => ?_) fun _ _ h => h).bind ?_
  · exact (hp.blames hb).mono le_sup_left
  · rintro d t ⟨⟨hp', ht⟩, hd, hsource'⟩
    exact hf (hp.trans hp') ht (hp'.scopes_ne ho) hd (hsource'.trans hsource)

theorem change {g : Draft → Draft} (hg : ∀ symbols child, child.Blank symbols →
    (g child).Blank symbols ∧ (g child).source = child.source) (hf : Defining n h D f) :
    Defining n h D fun child => f (g child) := by
  intro r s child P js hp hs ho hc hsource
  obtain ⟨hd, hsource'⟩ := hg _ _ hc
  exact hf hp hs ho hd (hsource'.trans hsource)

theorem finds {r s : Session} {f : String} (hp : RunInvariant n P js js r s)
    (hsource : child.source = r.frame.source) (hf : (s.at child).Finds D f)
    (hnames : D.names ⊆ E.names) : r.Finds (P ⊔ E) f := by
  rcases hf with hf | ⟨hnone, name, hname, rfl⟩
  · exact hp.finds (.inl hf)
  · have hr : r.includeFolder = none := by
      rcases hp.folder with hr | ⟨hr, -⟩
      · exact hr ▸ hnone
      · exact hr
    refine .inr ⟨hr, name, hname.imp ?_ fun hn => ?_, rfl⟩
    · rintro rfl
      simp only [Draft.sourceName, Session.at, hsource]
    · rw [names_sup]
      exact .inr (hnames hn)

theorem runInvariant {r s w : Session} (hp : RunInvariant n P js js r s)
    (hsource : child.source = r.frame.source) (hw : Filled n D s child w) :
    RunInvariant n (P ⊔ D.kept) js js r (w.at s.frame) where
  lists x hx := hw.lists x (hp.lists x hx)
  size := hp.size
  old := hp.old
  held := hp.held
  marks := hp.marks
  slots := hp.slots
  locals := hp.locals
  stays := hp.stays
  folder := by
    rcases hw.folder with hf | ⟨hnone, f, hf, hfinds⟩
    · rw [show (w.at s.frame).includeFolder = s.includeFolder from hf]
      refine hp.folder.imp_right ?_
      rintro ⟨hr, g, hg, hfinds⟩
      exact ⟨hr, g, hg, hfinds.mono (by simp [names_sup])⟩
    · refine .inr ⟨?_, f, hf, finds hp hsource hfinds (names_kept ▸ subset_rfl)⟩
      rcases hp.folder with hr | ⟨hr, -⟩
      · exact hr ▸ hnone
      · exact hr
  source := hp.source.imp_right fun hn => by
    rw [names_sup]
    exact .inl hn
  rounds f hf := by
    have hlooks : s.Looks f := by
      rcases hw.folder with hs | ⟨hs, -⟩
      · rwa [Looks, show (w.at s.frame).includeFolder = s.includeFolder from hs] at hf
      · exact .inl hs
    have hrefl : Rounds (D.kept f) s.frame.scopes s.frame.scopes :=
      .refl (fun label hl => by cases hl.2.1) _
    exact (hp.rounds f hlooks).trans hp.kinds hrefl
  balance := by
    obtain ⟨m, hm, hstray⟩ := hp.balance
    refine ⟨m, hm, fun f hf => ?_⟩
    have hlooks : s.Looks f := by
      rcases hw.folder with hs | ⟨hs, -⟩
      · rwa [Looks, show (w.at s.frame).includeFolder = s.includeFolder from hs] at hf
      · exact .inl hs
    rw [mem_sup, hstray f hlooks]
    exact ⟨.inl, fun h => h.resolve_right fun h => h.2.2 rfl⟩
  returns := hp.returns
  exits := hp.exits

theorem within (hx : Fills n D x) (hf : Finishing n h D f) :
    Defining n h D.shared fun child => Emit.within child x >>= f := by
  intro r s child P js hp hs ho hc hsource
  have hbody : Answers (r.Blames n (P ⊔ D.shared)) (fun d t => ∃ w, (Filled n D s child w ∧
      (n.logs = false → w.frame.finish.Returns)) ∧ d = w.frame ∧ t = w.at s.frame)
      (Emit.within child x s) := by
    have hfill := hx hs.toSound hc
    rw [Emit.within, show ({ s with frame := child } : Session) = s.at child from rfl]
    generalize x (s.at child) = result at hfill
    match result, hfill with
    | .ok (_, w), hw => exact ⟨w, hw, rfl, rfl⟩
    | .error (.rejected _), _ => trivial
    | .error .includesTooDeep, ⟨g, hg, hn⟩ =>
      exact ⟨g, finds hp hsource hg (names_shared ▸ subset_rfl), .inr ⟨hn, rfl⟩⟩
  refine hbody.bind ?_
  rintro _ _ ⟨w, ⟨hw, hreturns⟩, rfl, rfl⟩
  have hinvariant := runInvariant hp hsource hw
  have hsound : (w.at s.frame).Sound := ⟨hw.sound.table, hs.frame.mono hw.lists, hs.tidy, hs.base⟩
  have hholds : (w.at s.frame).Holds h js :=
    { hs with toSound := hsound, names := fun y hy => hw.lists y (hs.names y hy) }
  have hdone : w.frame.Done n D (w.at s.frame) := by
    refine ⟨hw.sound.frame, hw.loose, fun hl f hmem => ?_⟩
    rcases mem_cons.1 hmem with rfl | hmem
    · exact hreturns hl
    · exact (hw.exits hl).frames f hmem
  have := hf hinvariant hholds ho hdone
  rwa [sup_assoc, kept_sup_strayed] at this

theorem newChild {captures : Bool} (hf : Defining n h D f) :
    Safe n True h js D (fun _ => js) (Emit.newChild v captures >>= f) := by
  intro s hs ho
  have hblank : Blank s.symbols { s.frame.child v captures with scopes := [{ kind := .block }] } :=
    ⟨⟨hs.frame.source, fun _ hx => (nomatch hx), fun _ hx => (nomatch hx),
      fun ins hins => nomatch Array.not_mem_empty ins hins⟩, rfl, rfl, rfl⟩
  have hidle : s.Idles s := .of_frame hs.table (fun _ hx => hx) rfl rfl
  have := hf (hidle.runInvariant js) hs (ho trivial) hblank rfl
  rw [bot_sup_eq] at this
  exact this

theorem ite {c : Prop} [Decidable c] {g : Draft → Emit Unit} (hf : Defining n h D f)
    (hg : Defining n h D g) : Defining n h D fun child => if c then f child else g child := by
  split
  · exact hf
  · exact hg

end Defining

end

section

variable {e : Expr} {c : ExprCode} {ss : List Stmt} {b : Node} {p : Part}

theorem closureBody_concludes {c : NodeCode} (hbody : NodeSafe n lib v b c) :
    Concludes n True (.all lib v [b.part]) (closureBody v c) := by
  cases hbody with
  | stmt h => exact .after h.run fun _ => .frameExit
  | expr h => exact .after h.value.safe fun _ => .handOff

theorem closure_tracks {c : NodeCode} (loc : Loc) (isMethod : Bool) (hp : p.body? = some b)
    (hparts : p.parts v = es.map .expr) (hparams : Forall₂ (ExprSafe n lib v) es cs)
    (hbody : NodeSafe n lib v b c) : Tracks n lib v [p] (closure v loc cs c isMethod) := by
  rw [Tracks, all_singleton, of_routine hp, hparts, ← all_singleton]
  refine Defining.newChild (.prepare (parameters_safe hparams)
    (.within (.body (closureBody_concludes hbody)) (.own (fun d => ?_) (.emit fun _ hy => nomatch hy))))
  exact .forM _ fun _ _ => .readName trivial _ _

theorem NodeSafe.blockBody {c : NodeCode} {body : Emit Unit} {s t : Session}
    (h : NodeSafe n lib v b c) (hr : Emit.NodeCode.blockBody c s = .ok (body, t)) :
    Performs n lib v [b.part] body := by
  obtain ⟨-, s, c, rfl, h, hb⟩ := h.block_ok hr
  exact (h.block _ hb).2

theorem blockBody_behaves (c : NodeCode) : Behaves n ⊥ (Emit.NodeCode.blockBody c) := by
  intro h js
  unfold NodeCode.blockBody
  split
  · split
    · exact .pure _
    · exact .reject
  · exact .reject

theorem scope_behaves : Behaves n ⊥ (onFrame Draft.scope) := by
  refine .idle fun s hs ho _ => ?_
  obtain ⟨c, cs, hc⟩ := exists_cons_of_ne_nil (ho trivial)
  exact ⟨c, s, onFrame_ok.2 ⟨s.frame, by rw [scope, hc], rfl⟩,
    .of_frame hs.table (fun _ hx => hx) rfl rfl⟩

theorem subroutine_tracks {r : RoutineCode} (loc : Loc) (isMethod : Bool) (hp : p.body? = some b)
    (hparts : p.parts v = es.map .expr) (hparams : Forall₂ (ExprSafe n lib v) es r.params)
    (hbody : NodeSafe n lib v b r.body) : Tracks n lib v [p] (subroutine v loc r isMethod) := by
  rw [Tracks, all_singleton, of_routine hp, hparts, ← all_singleton]
  rw [subroutine_eq]
  cases r.id.bind Expr.ident? with
  | none => exact .reject
  | some name =>
    refine .looked (.symbol _) fun x => Defining.newChild ?_
    have hx {k : Known} : x ∈ (k.add { names := [x] }).names := by simp
    have hlast {k : Known} (hx : x ∈ k.names) : Defining n k
        (all lib v (es.map .expr) ⊔ (all lib v [b.part]).shared) (defineRoutine v loc r isMethod x) := by
      refine .prepare (parameters_safe hparams) (.own scope_behaves fun scope => ?_)
      refine .own .require fun _ => .own (.addMember trivial hx) fun _ => ?_
      rw [← bot_sup_eq (shared _)]
      refine .learn (blockBody_behaves r.body) (fun _ _ _ => hbody.blockBody) fun body htracks => ?_
      have hemit : Finishing n k (.all lib v [b.part]) fun d =>
          emit v (.subroutine (some x) d.finish isMethod) loc.line := .emit (by simpa using hx)
      exact .change (g := reserveSlot v isMethod) (fun _ _ h => h.reserveSlot v isMethod)
        (.within (.named htracks) hemit)
    refine .ite ?_ (hlast hx)
    exact .own (.define _ _) fun _ => .own .require fun _ => hlast hx

theorem awaitedTask_tracks (loc : Loc) (h : ExprSafe n lib v e c) :
    Tracks n lib v [.expr (.await loc e)] (awaitedTask v c) := by
  unfold awaitedTask
  rw [h.expr]
  split
  · exact closure_tracks _ _ rfl rfl .nil (.expr h)
  · rename_i hcall
    have hparts : (Part.expr (.await loc e)).parts v = [.expr e] := by
      cases e <;> first | rfl | exact absurd rfl (hcall _ _ _)
    have hthrough : (Part.expr (.await loc e)).isThrough = true := by
      cases e <;> first | rfl | exact absurd rfl (hcall _ _ _)
    intro k js
    refine .node hthrough ?_
    rw [hparts]
    exact h.value

theorem await_tracks (loc : Loc) (h : ExprSafe n lib v e c) :
    Tracks n lib v [.expr (.await loc e)] (Emit.await v loc c) := by
  refine .own (.member trivial _ _ _) fun _ => .last (awaitedTask_tracks loc h) fun _ => ?_
  refine .own (.plain rfl rfl) fun _ => Gives.temporary fun task hname => ?_
  refine Safe.ownLearn (.pushKnown trivial (by simp) hname) fun _ => ?_
  refine .own (.plain rfl rfl) fun _ => .own (.member trivial _ _ _) fun _ => ?_
  refine .own (.readTemporary (by simp) (by simp)) fun _ => ?_
  exact .own (.plain rfl rfl) fun _ => .warn _

theorem runAll_performs {cs : List StmtCode} (h : Forall₂ (StmtSafe n lib v) ss cs) :
    Performs n lib v (ss.map .stmt) (runAll cs) := by
  induction h with
  | nil => exact .leaf (.pure ())
  | cons hs _ ih => exact .first hs.run fun _ => ih

theorem modulePath_interns (name : String) (isStatic : Bool) :
    Interns (fun xs => xs) (modulePath name isStatic) := by
  refine .bind (.splitPath name) fun p => .pure _ ?_
  simp only [filter_eq_nil_iff, mem_cons]
  intro y hy
  split at hy <;> simp_all [or_comm]

theorem baseClass_interns (superClass : Option Expr) :
    Interns (fun xs => xs) (baseClass v superClass) := by
  have hname : ∀ name, Interns (fun xs => xs) (do
      let symbol ← symbol name
      pure [symbol]) := fun name => .bind (.symbol _) fun _ => .pure _ (by simp)
  unfold baseClass
  split
  · split
    · exact .reject
    · exact .ite (.pathSymbols _) (hname _)
  · exact .ite (.pathSymbols _) (hname _)

theorem openClass_safe {o : Prop} (loc : Loc) (c : ClassCode) (name : String) (isStatic : Bool) :
    Clean n o h js (openClass v loc c name isStatic) := by
  refine .ite ?_ ?_
  · exact .looked (modulePath_interns _ _) fun path =>
      .emit rfl fun _ hy => mem_append_left _ hy
  · refine .looked (.symbol _) fun x => .looked (baseClass_interns _) fun bases => .emit rfl fun y hy => ?_
    simp only [Operation.symbols, mem_cons] at hy
    simp only [Known.add, mem_append, mem_singleton]
    exact hy.symm.imp_right .inl

theorem classDef_tracks {c : ClassCode} (loc : Loc) (isStatic : Bool)
    (h : Forall₂ (StmtSafe n lib v) ss c.body) :
    Tracks n lib v (ss.map .stmt) (Emit.classDef v loc c isStatic) := by
  unfold classDef
  cases c.id.pathName? with
  | none => exact .reject
  | some name =>
    intro h' js
    refine .own .require fun _ => Closing.nested fun fresh => ?_
    have hclass : Closing n .module (.inner fresh) [] ⊥
        ((all lib v (ss.map .stmt)).past .module ⊔ ⊥) (do
        enterModule name
        openClass v loc c name isStatic
        runAll c.body
        leaveModuleScope v
        leaveModule
        setState v .exit) := by
      refine .own (.change fun s => ⟨rfl, rfl, rfl⟩) fun _ => .own (openClass_safe _ _ _ _) fun _ => ?_
      refine .bind ((runAll_performs h).safe trivial) fun _ => .andThen .leaveModule ?_
      exact .own (.change fun s => ⟨rfl, rfl, rfl⟩) fun _ => .setState _
    rwa [sup_bot_eq, past_of_not_isLoop rfl] at hclass

theorem staticClass_tracks {c : ClassCode} (loc : Loc)
    (h : Forall₂ (StmtSafe n lib v) ss c.body) :
    Tracks n lib v (ss.map .stmt) (staticClass v loc c) := .ite (classDef_tracks loc true h) .reject

end
end Adhoc
