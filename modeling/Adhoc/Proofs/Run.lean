import Adhoc.Lowering.Tree

namespace Adhoc

/-- Whether the operation sets the state of the interpreter, which ends the run of a frame. -/
def Operation.isState : Operation → Bool
  | .setState _ | .setStateOld _ => true
  | _ => false

/-- A capability that the last version has is there from its first version on. -/
theorem Version.has_iff {c : Capability} (hc : c.span.2 = 13) (v : Version) :
    v.has c = true ↔ c.span.1 ≤ v.number := by
  rw [Version.has, Bool.and_eq_true, decide_eq_true_eq, decide_eq_true_eq, hc]
  exact and_iff_left v.supported.2

namespace Emit

variable {α β : Type} {r : List (Option Nat) × Option UInt32} {u : Unit} {s t : Session}
  {v : Version} {dflt : Option UInt32} {step : Drafting α} {cs : List CaseCode} {op : Operation}
  {line : UInt32} {x : Emit α} {d : Draft} {loc : Loc} {n : Nat}

theorem bind_ok {f : α → Emit β} {b : β} :
    (x >>= f) s = .ok (b, t) ↔ ∃ a r, x s = .ok (a, r) ∧ f a r = .ok (b, t) := by
  rw [show (x >>= f) s = (x s).bind fun p => f p.1 p.2 from rfl]
  cases h : x s with
  | error e => simp [Except.bind]
  | ok p =>
    obtain ⟨a, r⟩ := p
    constructor
    · intro h
      exact ⟨a, r, rfl, h⟩
    · rintro ⟨_, _, h, h'⟩
      cases h
      exact h'

theorem pure_ok {a b : α} : (pure a : Emit α) s = .ok (b, t) ↔ b = a ∧ t = s := by
  rw [show (pure a : Emit α) s = .ok (a, s) from rfl]
  simp [eq_comm]

theorem discard_ok : (discard x : Emit Unit) s = .ok (u, t) ↔ ∃ a, x s = .ok (a, t) := by
  rw [show (discard x : Emit Unit) s = (x s).bind fun p => .ok ((), p.2) from rfl]
  cases h : x s with
  | error e => simp [Except.bind]
  | ok p =>
    obtain ⟨a, r⟩ := p
    simp [Except.bind]

theorem modify_ok {f : Session → Session} : (modify f : Emit Unit) s = .ok (u, t) ↔ t = f s := by
  rw [show (modify f : Emit Unit) s = .ok ((), f s) from rfl]
  simp [eq_comm]

theorem get_ok {a : Session} : (get : Emit Session) s = .ok (a, t) ↔ a = s ∧ t = s := by
  rw [show (get : Emit Session) s = .ok (s, s) from rfl]
  simp [eq_comm]

theorem frame_ok : frame s = .ok (d, t) ↔ d = s.frame ∧ t = s := by
  simp [frame, eq_comm]

theorem here_ok : here s = .ok (n, t) ↔ n = s.frame.code.size ∧ t = s := by
  simp [here, eq_comm]

theorem reject_ok {c : Cause} {r : α × Session} : (reject loc c : Emit α) s = .ok r ↔ False := by
  simp [reject]

theorem require_ok {c : Bool} {cause : Cause} :
    require c loc cause s = .ok (u, t) ↔ c = true ∧ t = s := by
  unfold require
  split <;> simp_all [pure_ok, reject_ok]

theorem onFrame_ok {a : α} :
    onFrame step s = .ok (a, t) ↔ ∃ d, step s.frame = .ok (a, d) ∧ t = { s with frame := d } := by
  unfold onFrame
  cases h : step s.frame with
  | error e => simp
  | ok p =>
    obtain ⟨b, d⟩ := p
    simp only [Except.ok.injEq, Prod.mk.injEq]
    constructor
    · rintro ⟨rfl, rfl⟩
      exact ⟨d, ⟨rfl, rfl⟩, rfl⟩
    · rintro ⟨_, ⟨rfl, rfl⟩, rfl⟩
      exact ⟨rfl, rfl⟩

theorem onDraft_ok {r : α × Draft} : onDraft d step s = .ok (r, t) ↔ step d = .ok r ∧ t = s := by
  unfold onDraft
  cases h : step d with
  | error e => simp
  | ok p => simp [eq_comm]

theorem within_ok {child c : Draft} {body : Emit Unit} :
    within child body s = .ok (c, t) ↔ ∃ u, body { s with frame := child } = .ok ((), u) ∧
      c = u.frame ∧ t = { u with frame := s.frame } := by
  unfold within
  cases h : body { s with frame := child } with
  | error e => simp
  | ok p =>
    obtain ⟨_, u⟩ := p
    simp [eq_comm]

theorem add_ok :
    add v op line s = .ok (n, t) ↔ ∃ moves, op.effect v = .ok moves ∧ n = s.frame.code.size ∧
      t = { s with frame := s.frame.write ⟨line, op⟩ (s.frame.depth.follow moves) } := by
  rw [add, onFrame_ok]
  unfold Draft.add
  cases h : op.effect v with
  | error e => simp
  | ok moves =>
    simp
    grind

theorem emitUntracked_ok :
    emitUntracked op line s = .ok (u, t) ↔
      t = { s with frame := s.frame.write ⟨line, op⟩ s.frame.depth } := by
  rw [emitUntracked, discard_ok]
  simp only [onFrame_ok, Draft.append, Except.ok.injEq, Prod.mk.injEq]
  constructor
  · rintro ⟨_, _, ⟨rfl, rfl⟩, rfl⟩
    rfl
  · rintro rfl
    exact ⟨_, _, ⟨rfl, rfl⟩, rfl⟩

/-- All cases have their jumps, but for one default. -/
theorem caseTests_ok {subject equals : Symbol}
    (h : caseTests v subject equals dflt cs s = .ok (r, t)) :
    r.1.length = cs.length ∧ r.1.count none + dflt.toList.length = r.2.toList.length := by
  induction cs generalizing dflt s r t with
  | nil =>
    obtain ⟨rfl, -⟩ := pure_ok.1 h
    simp
  | cons c cs ih =>
    cases ht : c.test <;> simp only [caseTests, ht, bind_ok] at h
    case none =>
      obtain ⟨_, r1, h1, ⟨jumps, d⟩, r2, h2, h3⟩ := h
      obtain ⟨hd, -⟩ := require_ok.1 h1
      rw [(pure_ok.1 h3).1, Option.isNone_iff_eq_none.1 hd, ← (ih h2).2]
      simpa using (ih h2).1
    case some test =>
      obtain ⟨_, r1, -, _, r2, -, _, r3, -, _, r4, -, ⟨jumps, d⟩, r5, h5, h6⟩ := h
      rw [(pure_ok.1 h6).1, ← (ih h5).2]
      simpa using (ih h5).1

theorem caseTests_length {subject equals : Symbol}
    (h : caseTests v subject equals dflt cs s = .ok (r, t)) : r.1.length = cs.length :=
  (caseTests_ok h).1

end Emit

/-- What jumps depend on in a scope. -/
structure Mark where
  kind : ScopeKind
  breaks : List Nat
  continues : List Nat

def Scope.mark (c : Scope) : Mark := ⟨c.kind, c.breaks, c.continues⟩

def Draft.marks (d : Draft) : List Mark := d.scopes.map Scope.mark

/-- Both are drafts of one frame: it has the same parameters, and unless it is a closure it captures
no more. -/
structure Draft.Keeps (d e : Draft) : Prop where
  parameters : e.parameters = d.parameters
  enclosing : e.enclosing = d.enclosing
  captured : d.enclosing = none → e.captured = d.captured

theorem Draft.Keeps.refl (d : Draft) : d.Keeps d := ⟨rfl, rfl, fun _ => rfl⟩

theorem Draft.Keeps.trans {d e f : Draft} (h : d.Keeps e) (h' : e.Keeps f) : d.Keeps f :=
  ⟨h'.parameters.trans h.parameters, h'.enclosing.trans h.enclosing,
    fun hd => (h'.captured (h.enclosing.trans hd)).trans (h.captured hd)⟩

/-- The code, its depth and the noted jumps are as before. -/
structure Draft.Still (d e : Draft) : Prop where
  code : e.code = d.code
  marks : e.marks = d.marks
  depth : e.depth = d.depth
  keeps : d.Keeps e

/-- The frame stands still, and the folder of includes stays settled once it is. -/
structure Still (s t : Session) : Prop extends s.frame.Still t.frame where
  folder : ∀ f, s.includeFolder = some f → t.includeFolder = some f

theorem Draft.Still.refl (d : Draft) : d.Still d := ⟨rfl, rfl, rfl, .refl _⟩

theorem Still.refl (s : Session) : Still s s := ⟨.refl _, fun _ h => h⟩

theorem Still.trans {s r t : Session} (h : Still s r) (h' : Still r t) : Still s t :=
  ⟨⟨h'.code.trans h.code, h'.marks.trans h.marks, h'.depth.trans h.depth, h.keeps.trans h'.keeps⟩,
    fun f hf => h'.folder f (h.folder f hf)⟩

/-- Nothing is warned of either, and the same modules are open. -/
structure Idle (s t : Session) : Prop extends still : Still s t where
  warnings : t.warnings = s.warnings
  path : t.modules.path = s.modules.path

theorem Idle.refl (s : Session) : Idle s s := ⟨.refl s, rfl, rfl⟩

theorem Idle.trans {s r t : Session} (h : Idle s r) (h' : Idle r t) : Idle s t :=
  ⟨h.still.trans h'.still, h'.warnings.trans h.warnings, h'.path.trans h.path⟩

def Drafting.Neutral {α : Type} (step : Drafting α) : Prop :=
  ∀ ⦃d a e⦄, step d = .ok (a, e) → d.Still e

namespace Emit

variable {α β : Type} {f : α → Emit β} {x : Emit α}

def Neutral (x : Emit α) : Prop := ∀ ⦃s a t⦄, x s = .ok (a, t) → Idle s t

theorem Neutral.pure (a : α) : Neutral (Pure.pure a) := by
  intro s b t h
  obtain ⟨-, rfl⟩ := pure_ok.1 h
  exact .refl _

theorem Neutral.bind (hx : Neutral x) (hf : ∀ a, Neutral (f a)) : Neutral (x >>= f) := by
  intro s b t h
  obtain ⟨a, r, h1, h2⟩ := bind_ok.1 h
  exact (hx h1).trans (hf a h2)

theorem Neutral.discard (hx : Neutral x) : Neutral (Functor.discard x) := by
  intro s b t h
  obtain ⟨a, h⟩ := discard_ok.1 h
  exact hx h

theorem Neutral.ite {c : Prop} [Decidable c] {y : Emit α} (hx : Neutral x) (hy : Neutral y) :
    Neutral (if c then x else y) := by
  split
  · exact hx
  · exact hy

theorem Neutral.reject {loc : Loc} {c : Cause} : Neutral (Emit.reject loc c : Emit α) := by
  intro s a t h
  exact (reject_ok.1 h).elim

theorem Neutral.require {c : Bool} {loc : Loc} {cause : Cause} :
    Neutral (Emit.require c loc cause) := by
  intro s a t h
  obtain ⟨-, rfl⟩ := require_ok.1 h
  exact .refl _

theorem Neutral.onFrame {step : Drafting α} (h : step.Neutral) : Neutral (Emit.onFrame step) := by
  intro s a t hr
  obtain ⟨d, hd, rfl⟩ := onFrame_ok.1 hr
  exact ⟨⟨h hd, fun _ hf => hf⟩, rfl, rfl⟩

theorem Neutral.onDraft (d : Draft) (step : Drafting α) : Neutral (Emit.onDraft d step) := by
  intro s a t h
  obtain ⟨-, rfl⟩ := onDraft_ok.1 h
  exact .refl _

theorem Neutral.frame : Neutral Emit.frame := by
  intro s a t h
  obtain ⟨-, rfl⟩ := frame_ok.1 h
  exact .refl _

theorem Neutral.here : Neutral Emit.here := by
  intro s a t h
  obtain ⟨-, rfl⟩ := here_ok.1 h
  exact .refl _

theorem Neutral.get : Neutral (MonadState.get : Emit Session) := by
  intro s a t h
  obtain ⟨-, rfl⟩ := get_ok.1 h
  exact .refl _

theorem Neutral.change {f : Session → Session} (h : ∀ s, Idle s (f s)) :
    Neutral (modify f : Emit Unit) := by
  intro s a t hr
  rw [modify_ok.1 hr]
  exact h s

theorem Neutral.mapM (l : List α) (h : ∀ a ∈ l, Neutral (f a)) : Neutral (l.mapM f) := by
  induction l with
  | nil => exact .pure []
  | cons a l ih =>
    rw [List.mapM_cons]
    exact .bind (h a (by simp)) fun _ => .bind (ih fun b hb => h b (by simp [hb])) fun _ => .pure _

theorem Neutral.interned (step : SymbolTable → Symbol × SymbolTable) :
    Neutral (Emit.interned step) := by
  intro s a t h
  simp only [Emit.interned, Except.ok.injEq, Prod.mk.injEq] at h
  rw [← h.2]
  exact ⟨⟨.refl _, fun _ hf => hf⟩, rfl, rfl⟩

theorem Neutral.symbol (name : String) : Neutral (Emit.symbol name) := .interned _

theorem Neutral.plainSymbol (name : String) : Neutral (Emit.plainSymbol name) := .interned _

theorem Neutral.stringSymbol (content : String) (bytePerChar : Bool) :
    Neutral (Emit.stringSymbol content bytePerChar) := .interned _

theorem Neutral.operatorSymbol (internal : Bool) (text : String) :
    Neutral (Emit.operatorSymbol internal text) := .ite (.symbol _) (.plainSymbol _)

theorem Neutral.temporary (stem : String) : Neutral (Emit.temporary stem) := by
  intro s a t h
  obtain ⟨⟨hframe, hf⟩, hwarnings, hpath⟩ := Neutral.plainSymbol _ h
  exact ⟨⟨hframe, hf⟩, hwarnings, hpath⟩

theorem Neutral.splitPath (name : String) : Neutral (Emit.splitPath name) := by
  unfold Emit.splitPath
  refine .bind (.symbol _) fun full => ?_
  split
  · exact .bind (.mapM _ fun _ _ => .symbol _) fun _ => .pure _
  · exact .pure _

theorem Neutral.pathSymbols (name : String) : Neutral (Emit.pathSymbols name) :=
  .bind (.splitPath _) fun _ => .pure _

theorem Neutral.define (kind : MemberKind) (symbol : Symbol) :
    Neutral (Emit.define kind symbol) := by
  intro s a t h
  simp only [Emit.define, Except.ok.injEq, Prod.mk.injEq] at h
  rw [← h.2]
  exact ⟨⟨.refl _, fun _ hf => hf⟩, rfl, s.modules.defineIn_path _ kind symbol⟩

end Emit

namespace Draft

theorem useLocal_neutral (symbol : Symbol) : (useLocal symbol).Neutral := by
  intro d a e h
  simp only [useLocal] at h
  split at h
  · split at h
    · cases h
    · rename_i hs
      cases h
      exact ⟨rfl, by simp [marks, hs, Scope.mark, Scope.addLocal], rfl, rfl, rfl, fun _ => rfl⟩
  · cases h
    exact ⟨rfl, rfl, rfl, rfl, rfl, fun _ => rfl⟩

theorem useStatic_neutral (symbol : Symbol) : (useStatic symbol).Neutral := by
  intro d a e h
  simp only [useStatic] at h
  split at h
  · split at h
    · cases h
    · rename_i hs
      cases h
      exact ⟨rfl, by simp [marks, hs, Scope.mark, Scope.addStatic], rfl, rfl, rfl, fun _ => rfl⟩
  · cases h
    exact ⟨rfl, rfl, rfl, rfl, rfl, fun _ => rfl⟩

theorem capture_still {symbol : Symbol} {d e : Draft} {a : Int} (hc : d.captures symbol = true)
    (h : capture symbol d = .ok (a, e)) : d.Still e := by
  have hclosure : d.enclosing ≠ none := by
    intro hn
    simp [captures, hn] at hc
  simp only [capture] at h
  split at h
  · cases h
    exact .refl _
  · cases h
    exact ⟨rfl, rfl, rfl, rfl, rfl, fun hn => absurd hn hclosure⟩

theorem resolve_neutral (symbol : Symbol) (access : Access) : (resolve symbol access).Neutral := by
  intro d a e h
  cases access <;> simp only [resolve] at h
  case declare => exact useLocal_neutral _ h
  case writeStatic => exact useStatic_neutral _ h
  all_goals
    split at h
    · exact capture_still ‹_› h
    first
    | exact useStatic_neutral _ h
    | split at h
      · exact useLocal_neutral _ h
      · exact useStatic_neutral _ h

theorem localIndex_neutral (symbol : Symbol) : (localIndex symbol).Neutral := by
  intro d a e h
  simp only [localIndex] at h
  split at h <;> cases h
  exact .refl _

theorem addMember_neutral (symbol : Symbol) : (addMember symbol).Neutral := by
  intro d a e h
  simp only [addMember] at h
  split at h
  · cases h
  · rename_i hs
    cases h
    exact ⟨rfl, by simp [marks, hs, Scope.mark, Scope.addStatic], rfl, rfl, rfl, fun _ => rfl⟩

theorem addStatics_neutral (symbols : List (Option Symbol)) : (addStatics symbols).Neutral := by
  intro d a e h
  cases h
  exact ⟨rfl, rfl, rfl, rfl, rfl, fun _ => rfl⟩

theorem addParameter_uses {x : Symbol} {d e : Draft} (h : addParameter x d = .ok ((), e)) :
    ∃ i, useLocal x { d with parameters := d.parameters ++ [x] } = .ok (i, e) := by
  rw [show addParameter x d = (useLocal x { d with parameters := d.parameters ++ [x] }).bind
    fun p => .ok ((), p.2) from rfl] at h
  cases hr : useLocal x { d with parameters := d.parameters ++ [x] } with
  | error => simp [hr, Except.bind] at h
  | ok p =>
    simp only [hr, Except.bind, Except.ok.injEq, Prod.mk.injEq] at h
    exact ⟨p.1, h.2 ▸ rfl⟩

theorem addParameter_ok {symbol : Symbol} {d e : Draft} (h : addParameter symbol d = .ok ((), e)) :
    Still { d with parameters := d.parameters ++ [symbol] } e := by
  obtain ⟨i, huse⟩ := addParameter_uses h
  exact useLocal_neutral _ huse

theorem scope_neutral : scope.Neutral := by
  intro d a e h
  simp only [scope] at h
  split at h <;> cases h
  exact .refl _

end Draft

namespace Emit

/-- A return at the top is noted. -/
def markReturn : Emit Unit := modify fun s =>
  if s.frame.atTop then { s with frame := { s.frame with returnsAtTop := true } } else s

/-- The `LEAVE` of a scope, -/
def markLeave (v : Version) (leaves : Bool) : Emit Unit :=
  if leaves && v.has .leave then do
    let f ← frame
    emit v (.leave 0 f.slots.rewindIndex) 0
  else pure ()

/-- and of a class or module. -/
def markModuleLeave (v : Version) : Emit Unit :=
  if v.has .leave then do
    let s ← get
    emit v (.leave (s.modules.depth - 1 : Nat)
      (if s.frame.isRoot then 1 else s.frame.slots.rewindIndex)) 0
  else pure ()

theorem leaveScope_eq {v : Version} {leaves : Bool} : leaveScope v leaves = (do
    let scope ← onFrame Draft.popScope
    if v.has .freesOnLeave then freeAll Slots.freeLocal scope.locals
    markLeave v leaves) :=
  rfl

/-- The body is lowered into the draft, whose frame is defined then. -/
def defineBody (v : Version) (line : UInt32) (isMethod : Bool) (symbol : Symbol) (body : Emit Unit)
    (child : Draft) : Emit Unit := do
  let child ← within child do
    body
    leaveScope v false
    frameExit v
  emit v (.subroutine (some symbol) child.finish isMethod) line

/-- A named function or method after its parameters: it is a member before its body is lowered. -/
def defineMember (v : Version) (loc : Loc) (isMethod : Bool) (symbol : Symbol) (body : NodeCode)
    (child : Draft) : Emit Unit := do
  let scope ← onFrame Draft.scope
  require (!scope.hasStatic symbol) loc (.subroutineDefined symbol.name)
  addMember symbol
  let body ← NodeCode.blockBody body
  defineBody v loc.line isMethod symbol body child

/-- What follows the check that a method is new. -/
def defineRoutine (v : Version) (loc : Loc) (r : RoutineCode) (isMethod : Bool) (symbol : Symbol)
    (child : Draft) : Emit Unit := do
  let child ← parameters r.params child
  defineMember v loc isMethod symbol r.body (reserveSlot v isMethod child)

theorem subroutine_eq {v : Version} {loc : Loc} {r : RoutineCode} {isMethod : Bool} :
    subroutine v loc r isMethod = (match r.id.bind Expr.ident? with
      | none => reject loc .subroutineWithoutName
      | some name => do
        let symbol ← symbol name
        let child ← newChild v false
        if isMethod then
          let isNew ← define .method symbol
          require isNew loc (.methodDefined symbol.name)
        defineRoutine v loc r isMethod symbol child) :=
  rfl

/-- The statements of another file, between two marks. -/
def included (v : Version) (line : UInt32) (path : String) (x : Emit Unit) : Emit Unit := do
  let f ← frame
  let inner ← plainSymbol path
  setSource (some inner)
  emit v (.named .sourceFile inner) line
  x
  let outer ← match f.source with
    | some outer => pure outer
    | none => plainSymbol ""
  emit v (.named .sourceFile outer) line
  setSource f.source

theorem includeFile_eq {cx : Context} {loc : Loc} {path : String} : includeFile cx loc path = (do
    let location ← locateInclude cx loc path
    match cx.sources.read? location with
    | none => reject loc (.includeUnreadable location)
    | some program => included cx.version loc.line path (cx.follow program.body)) :=
  rfl

end Emit

end Adhoc
