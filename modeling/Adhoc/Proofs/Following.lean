import Adhoc.Proofs.Deeds

namespace Adhoc

open Emit Draft Deeds

variable {α : Type} {folder : Option String} {v : Version} {a : Deeds} {leaves : Bool}
  {y x : Emit α}

/-- The folder of includes is settled if it is given. -/
def Session.Settled (folder : Option String) (s : Session) : Prop :=
  ∀ f, folder = some f → s.includeFolder = some f

theorem Session.Widens.settled {s t : Session} (h : s.Widens t) (hs : s.Settled folder) :
    t.Settled folder := fun f hf => h.folder f (hs f hf)

section

variable (v : Version) (folder : Option String)

/-- Every run of the action has a course within the bounds. -/
def Follows {α : Type} (a : Deeds) (x : Emit α) : Prop :=
  ∀ ⦃s r t⦄, s.Settled folder → x s = .ok (r, t) →
    ∃ ds, Course v ds s t ∧ a.Bound v ds s.frame t.frame

/-- As `Follows`, if the symbol is known. -/
def FollowsKnowing {α : Type} (x : Symbol) (a : Deeds) (y : Emit α) : Prop :=
  ∀ ⦃s r t⦄, s.Settled folder → s.symbols.Knows x → y s = .ok (r, t) →
    ∃ ds, Course v ds s t ∧ a.Bound v ds s.frame t.frame

end

/-- The names in the frame, its slots, scopes and code are as before. -/
structure Session.Rests (s t : Session) : Prop where
  widens : s.Widens t
  remains : s.frame.Remains t.frame
  slots : t.frame.slots = s.frame.slots
  bare : t.frame.bare = s.frame.bare
  captured : t.frame.captured = s.frame.captured
  code : t.frame.code = s.frame.code
  moments : t.frame.moments = s.frame.moments

theorem Session.Rests.step {s t : Session} (h : s.Rests t) : Step [] s t :=
  { widens := h.widens
    remains := h.remains
    act := ⟨[], [], rfl, .none h.slots h.bare h.captured, .none h.code⟩
    named := .of_size (h.code ▸ le_rfl)
    records := .rest h.code h.moments }

theorem Session.Rests.of_frame {s t : Session} (h : s.Widens t) (hf : t.frame = s.frame) :
    s.Rests t := by
  refine ⟨h, ?_, ?_, ?_, ?_, ?_, ?_⟩ <;> rw [hf]
  exact .refl _

namespace Follows

variable {β : Type} {b : Deeds} {op : Operation} {f : α → Emit β} {line : UInt32}

theorem mono (h : Follows v folder a x) (hab : a.Within b) : Follows v folder b x := by
  intro s r t hs hr
  obtain ⟨ds, hc, hb⟩ := h hs hr
  exact ⟨ds, hc, hb.within hab⟩

theorem bind (hx : Follows v folder a x) (hf : ∀ r, Follows v folder b (f r)) :
    Follows v folder (a + b) (x >>= f) := by
  intro s r t hs h
  obtain ⟨r', u, h1, h2⟩ := bind_ok.1 h
  obtain ⟨ds, hc, hb⟩ := hx hs h1
  obtain ⟨es, hc', hb'⟩ := hf r' (hc.widens.settled hs) h2
  exact ⟨ds ++ es, hc.trans hc', hb.append hb'⟩

/-- The action begins with what leaves nothing behind. -/
theorem own (hx : Follows v folder 0 x) (hf : ∀ r, Follows v folder a (f r)) :
    Follows v folder a (x >>= f) := by
  simpa using bind hx hf

theorem last (hx : Follows v folder a x) (hf : ∀ r, Follows v folder 0 (f r)) :
    Follows v folder a (x >>= f) := by
  simpa using bind hx hf

theorem rests (h : ∀ ⦃s r t⦄, x s = .ok (r, t) → s.Rests t) : Follows v folder 0 x :=
  fun _ _ _ _ hr => ⟨[], .of_step (h hr).step, .nil (.of_code (h hr).code)⟩

theorem still (h : ∀ ⦃s r t⦄, x s = .ok (r, t) → t = s) : Follows v folder 0 x :=
  rests fun _ _ _ hr => h hr ▸ .of_frame (.refl _) rfl

theorem pure (r : α) : Follows v folder 0 (Pure.pure r : Emit α) := still fun _ _ _ h => (pure_ok.1 h).2

theorem reject {loc : Loc} {c : Cause} : Follows v folder a (reject loc c : Emit α) := by
  intro s r t _ h
  exact (reject_ok.1 h).elim

theorem require {c : Bool} {loc : Loc} {cause : Cause} :
    Follows v folder 0 (require c loc cause) := still fun _ _ _ h => (require_ok.1 h).2

theorem ite {c : Prop} [Decidable c] (hx : Follows v folder a x) (hy : Follows v folder a y) :
    Follows v folder a (if c then x else y) := by
  split
  · exact hx
  · exact hy

theorem discard (hx : Follows v folder a x) : Follows v folder a (Functor.discard x) := by
  intro s r t hs h
  obtain ⟨r', h⟩ := discard_ok.1 h
  exact hx hs h

theorem frame : Follows v folder 0 frame := still fun _ _ _ h => (frame_ok.1 h).2

theorem here : Follows v folder 0 here := still fun _ _ _ h => (here_ok.1 h).2

theorem get : Follows v folder 0 (MonadState.get : Emit Session) := still fun _ _ _ h => (get_ok.1 h).2

theorem change {f : Session → Session} (h : ∀ s : Session, s.Rests (f s)) :
    Follows v folder 0 (modify f : Emit Unit) :=
  rests fun s _ _ hr => modify_ok.1 hr ▸ h s

theorem forM {f : α → Emit Unit} (l : List α) (h : ∀ r ∈ l, Follows v folder 0 (f r)) :
    Follows v folder 0 (l.forM f) := by
  induction l with
  | nil => exact pure ()
  | cons r l ih => exact own (h r (by simp)) fun _ => ih fun r' hr => h r' (by simp [hr])

theorem mapM (l : List α) (h : ∀ r ∈ l, Follows v folder 0 (f r)) :
    Follows v folder 0 (l.mapM f) := by
  induction l with
  | nil => exact pure []
  | cons r l ih =>
    rw [List.mapM_cons]
    exact own (h r (by simp)) fun _ => own (ih fun r' hr => h r' (by simp [hr])) fun _ => pure _

theorem interned {step : SymbolTable → Symbol × SymbolTable} (h : ∀ t : SymbolTable, t.Grows (step t).2) :
    Follows v folder 0 (Emit.interned step) := by
  refine rests fun s r t hr => ?_
  simp only [Emit.interned, Except.ok.injEq, Prod.mk.injEq] at hr
  obtain ⟨-, rfl⟩ := hr
  exact .of_frame ⟨h _, fun _ hf => hf⟩ rfl

theorem symbol (name : String) : Follows v folder 0 (symbol name) :=
  interned fun t => t.intern_grows _ _

theorem plainSymbol (name : String) : Follows v folder 0 (plainSymbol name) :=
  interned fun t => t.intern_grows _ _

theorem stringSymbol (content : String) (bytePerChar : Bool) :
    Follows v folder 0 (stringSymbol content bytePerChar) := interned fun t => t.intern_grows _ _

theorem operatorSymbol (internal : Bool) (text : String) :
    Follows v folder 0 (operatorSymbol internal text) := ite (symbol _) (plainSymbol _)

theorem temporary (stem : String) : Follows v folder 0 (temporary stem) := by
  refine rests fun s r t hr => ?_
  obtain ⟨-, hwide, hframe⟩ := temporary_ok hr
  exact .of_frame hwide hframe

theorem splitPath (name : String) : Follows v folder 0 (Emit.splitPath name) := by
  unfold Emit.splitPath
  refine own (symbol _) fun full => ?_
  split
  · exact own (mapM _ fun _ _ => symbol _) fun _ => pure _
  · exact pure _

theorem pathSymbols (name : String) : Follows v folder 0 (pathSymbols name) :=
  own (splitPath _) fun _ => pure _

theorem define (kind : MemberKind) (symbol : Symbol) :
    Follows v folder 0 (Emit.define kind symbol) := by
  refine rests fun s r t hr => ?_
  simp only [Emit.define, Except.ok.injEq, Prod.mk.injEq] at hr
  obtain ⟨-, rfl⟩ := hr
  exact .of_frame ⟨.refl _, fun _ hf => hf⟩ rfl

theorem warn (w : Warning) : Follows v folder 0 (warn w) := by
  refine change fun s => ?_
  split
  · exact .of_frame (.refl _) rfl
  · exact .of_frame ⟨.refl _, fun _ hf => hf⟩ rfl

theorem appended (line : UInt32) (hop : op.isPlain = true)
    (h : ∀ ⦃s r t⦄, x s = .ok (r, t) → ∃ depth,
      t = s.at (s.frame.write ⟨line, op⟩ depth)) :
    Follows v folder (.called (if op.isCall then 1 else 0)) x := by
  intro s r t _ hr
  obtain ⟨depth, rfl⟩ := h hr
  refine ⟨[], .of_step ?_, fun _ h => (nomatch h), fun _ h => (nomatch h), .push rfl (fun n hn => ?_) ?_⟩
  · exact ⟨⟨.refl _, fun _ hf => hf⟩, ⟨rfl, rfl, rfl, rfl⟩,
      ⟨[], [], rfl, .none rfl rfl rfl, .plain hop rfl⟩, .of_plain rfl hop, .write _ _ _⟩
  · rw [Instruction.calls_plain line hop]
    simp only [called] at hn
    split at hn <;> rw [← WithTop.coe_injective hn] <;> simp [*]
  · simp [Instruction.frames_plain line hop]

theorem silent (line : UInt32) (hop : op.isSilent = true)
    (h : ∀ ⦃s r t⦄, x s = .ok (r, t) → ∃ depth,
      t = s.at (s.frame.write ⟨line, op⟩ depth)) :
    Follows v folder 0 x := by
  simp only [Operation.isSilent, Bool.and_eq_true, Bool.not_eq_true'] at hop
  have happended : Follows v folder (.called (if op.isCall then 1 else 0)) x := appended line hop.1 h
  rwa [hop.2] at happended

theorem add (hop : op.isSilent = true) : Follows v folder 0 (add v op line) := by
  refine silent line hop fun s r t hr => ?_
  obtain ⟨moves, -, -, rfl⟩ := add_ok.1 hr
  exact ⟨_, rfl⟩

theorem emit (hop : op.isSilent = true) :
    Follows v folder 0 (emit v op line) := discard (add hop)

theorem call (hop : op.isPlain = true) (hcall : op.isCall = true) :
    Follows v folder (.called 1) (Emit.emit v op line) := by
  have happended : Follows v folder (.called (if op.isCall then 1 else 0)) (Emit.emit v op line) :=
    appended line hop fun _ _ _ hr => emit_ok hr
  rwa [hcall] at happended

theorem emitUntracked (hop : op.isSilent = true) :
    Follows v folder 0 (emitUntracked op line) := by
  refine silent line hop fun s r t hr => ?_
  rw [emitUntracked_ok.1 hr]
  exact ⟨s.frame.depth, rfl⟩

theorem jump (kind : Jump) (line : UInt32) : Follows v folder 0 (jump v kind line) := add rfl

theorem jumpTo (target : Nat) (line : UInt32) : Follows v folder 0 (jumpTo v target line) :=
  emit rfl

theorem patch (k target : Nat) : Follows v folder 0 (patch k target) := by
  intro s r t _ hr
  obtain ⟨d, hd, rfl⟩ := onFrame_ok.1 hr
  obtain ⟨hframe, hsize⟩ : d = { s.frame with code := d.code } ∧ d.code.size = s.frame.code.size := by
    unfold Draft.patch at hd
    split at hd
    · cases hd
    · split at hd <;> cases hd
      exact ⟨rfl, by simp⟩
  refine ⟨[], .of_step ⟨⟨.refl _, fun _ hf => hf⟩, ?_, ⟨[], [], rfl, .none ?_ ?_ ?_, .patch hd rfl⟩,
    .of_size (Nat.le_of_eq hsize), .inl ⟨hsize, by rw [hframe]⟩⟩, .nil (patch_brings hr)⟩
  · exact ⟨by rw [hframe], by rw [hframe], by rw [hframe], by rw [hframe]⟩
  all_goals simp only [bare]; rw [hframe]

theorem patchHere (k : Nat) : Follows v folder 0 (patchHere k) := own here fun _ => patch _ _

theorem dropDepth (n : Int) : Follows v folder 0 (onFrame (dropDepth n)) := by
  refine rests fun s r t hr => ?_
  obtain ⟨d, hd, rfl⟩ := onFrame_ok.1 hr
  cases hd
  exact ⟨⟨.refl _, fun _ hf => hf⟩, ⟨rfl, rfl, rfl, rfl⟩, rfl, rfl, rfl, rfl, rfl⟩

theorem takeBreaks : Follows v folder 0 takeBreaks := by
  refine rests fun s r t hr => ?_
  obtain ⟨c, rest, hs, -, rfl⟩ := takeBreaks_ok.1 hr
  exact ⟨⟨.refl _, fun _ hf => hf⟩, ⟨rfl, rfl, rfl, rfl⟩, rfl, by simp [bare, hs, Scope.bare],
    rfl, rfl, rfl⟩

theorem takeContinues : Follows v folder 0 takeContinues := by
  refine rests fun s r t hr => ?_
  obtain ⟨c, rest, hs, -, rfl⟩ := takeContinues_ok.1 hr
  exact ⟨⟨.refl _, fun _ hf => hf⟩, ⟨rfl, rfl, rfl, rfl⟩, rfl, by simp [bare, hs, Scope.bare],
    rfl, rfl, rfl⟩

theorem stateOperation_isSilent (state : RunState) : (stateOperation v state).isSilent = true := by
  unfold stateOperation
  split <;> rfl

theorem setState (state : RunState) : Follows v folder 0 (setState v state) :=
  emit (stateOperation_isSilent state)

theorem handOff (state : RunState) : Follows v folder 0 (handOff v state) :=
  own (emitUntracked (stateOperation_isSilent state)) fun _ => dropDepth 1

theorem bareReturn : Follows v folder 0 (bareReturn v) :=
  emitUntracked (stateOperation_isSilent .return)

theorem emptyReturn : Follows v folder 0 (emptyReturn v) :=
  ite (own (emit rfl) fun _ => handOff .return) bareReturn

theorem frameExit : Follows v folder 0 (frameExit v) :=
  own frame fun _ => ite (pure ()) emptyReturn

end Follows

namespace FollowsKnowing

variable {β : Type} {b : Deeds} {x : Symbol} {f : α → Emit β}

theorem of_follows (h : Follows v folder a y) : FollowsKnowing v folder x a y :=
  fun _ _ _ hs _ hr => h hs hr

theorem bind (hy : FollowsKnowing v folder x a y) (hf : ∀ r, FollowsKnowing v folder x b (f r)) :
    FollowsKnowing v folder x (a + b) (y >>= f) := by
  intro s r t hs hx h
  obtain ⟨r', u, h1, h2⟩ := bind_ok.1 h
  obtain ⟨ds, hc, hb⟩ := hy hs hx h1
  obtain ⟨es, hc', hb'⟩ := hf r' (hc.widens.settled hs) (hx.mono hc.widens.symbols) h2
  exact ⟨ds ++ es, hc.trans hc', hb.append hb'⟩

/-- The action begins with what leaves nothing behind. -/
theorem own (hy : Follows v folder 0 y) (hf : ∀ r, FollowsKnowing v folder x a (f r)) :
    FollowsKnowing v folder x a (y >>= f) := by
  simpa using bind (of_follows hy) hf

end FollowsKnowing

/-- What follows a look-up of a name may use that its symbol is known. -/
theorem Follows.looked {name : String} {f : Symbol → Emit α}
    (hf : ∀ x, x.name = Symbol.canonical name → FollowsKnowing v folder x a (f x)) :
    Follows v folder a (Emit.symbol name >>= f) := by
  intro s r t hs h
  obtain ⟨x, u, h1, h2⟩ := bind_ok.1 h
  obtain ⟨hx, hname, hwide, hframe⟩ := symbol_ok h1
  obtain ⟨ds, hc, hb⟩ := hf x hname (hwide.settled hs) hx h2
  exact ⟨ds, (Course.of_step (Session.Rests.of_frame hwide hframe).step).trans hc, hframe ▸ hb⟩

section

variable (lib : Library) (v : Version) (logs : Bool)

/-- Every run of the action has a course with the deeds of the parts. -/
def Covers {α : Type} (ps : List Part) (x : Emit α) : Prop :=
  Follows v lib.includeFolder (.all lib v logs ps) x

end

namespace Covers

variable {β : Type} {lib : Library} {logs : Bool} {p : Part} {ps qs : List Part}
  {names : List String} {n : WithTop ℕ}

theorem of_part (h : Follows v lib.includeFolder (.of lib v logs p) x) :
    Covers lib v logs [p] x := by
  rw [Covers, all_singleton]
  exact h

theorem part (h : Covers lib v logs [p] x) : Follows v lib.includeFolder (.of lib v logs p) x := by
  rwa [Covers, all_singleton] at h

theorem definition (hp : p.isQuiet = true) (hm : p.members = names) (hn : p.aside logs = n)
    (hx : Follows v lib.includeFolder (.members names + .called n + .all lib v logs (p.parts v)) x) :
    Covers lib v logs [p] x := by
  refine of_part ?_
  rw [of_quiet hp, hm, hn]
  exact hx

theorem taking (names : Set String) (hc : p.isClass = false) (hs : p.isScope = false)
    (hi : p.isInclusion = false) (hm : p.members = []) (hn : p.aside logs = n)
    (hnames : ∀ name ∈ names, p.Takes logs name)
    (hx : Follows v lib.includeFolder (.owned names + .called n + .all lib v logs (p.parts v)) x) :
    Covers lib v logs [p] x := by
  refine of_part ?_
  rw [of_eq hc hs hi, own, hm, members_nil, add_zero, hn]
  exact hx.mono (.add (.add (.owned hnames) (.refl _)) (.refl _))

end Covers

end Adhoc
