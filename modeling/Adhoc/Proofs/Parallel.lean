import Adhoc.Proofs.Filling
import Adhoc.Proofs.Following
import Adhoc.Proofs.Likeness
import Adhoc.Proofs.Positions

namespace Adhoc

/-- Whether lowering asks for the capability. The rest concerns the container alone, and the small
integers, which are only ever asked for by their literals. -/
def Capability.isLowered : Capability → Bool
  | .symbolTable | .frameDebugHeader | .restFlag | .parameterList | .parameterIndices | .capturedList
  | .importAlias | .singleSymbolAttributePush | .sourceFileSupport | .attributeEval
  | .setStateInFunctions | .smallIntConstants => false
  | _ => true

theorem Version.lowers_alike (v : Version) (c : Capability) (_ : c.isLowered = true) :
    v.has c = v.has c := rfl

theorem Loc.unmoved (_ : True) : (id : Loc → Loc) = id := rfl

/-- What two compilations may differ in. -/
structure Terms where
  left : Version
  right : Version
  /-- Whether positions are the same on both sides. -/
  exact : Prop
  /-- Where a position of the first program stands in the second. -/
  move : Loc → Loc
  move_eq : exact → move = id
  /-- What the instructions of both compilations have in common. -/
  alike : Instruction → Instruction → Prop
  matching : Matching exact alike
  /-- Failures of the first compilation after which nothing is said of the second. -/
  excused : Failure → Prop
  /-- The folder of includes, if it is known to be settled. -/
  folder : Option String
  /-- What stands for an include in the first program and in the second. -/
  fill : Loc → String → List Stmt
  fill' : Loc → String → List Stmt
  fill_ne : ∀ loc path, fill loc path ≠ [] ∧ fill' loc path ≠ []
  has_eq : ∀ c : Capability, c.isLowered = true → left.has c = right.has c
  small : left.has .smallIntConstants = right.has .smallIntConstants ∨
    right.has .smallIntConstants = true ∧ ∀ e, excused e

/-- The source of the frame is the symbol of the name. -/
def Session.Sourced (name : String) (s : Session) : Prop :=
  ∃ x, s.frame.source = some x ∧ s.symbols.find? name = some x

theorem Session.Sourced.mono {name : String} {s t : Session} (h : s.Sourced name)
    (hsource : t.frame.source = s.frame.source) (hgrows : s.symbols.Grows t.symbols) :
    t.Sourced name := by
  obtain ⟨x, hx, hfind⟩ := h
  exact ⟨x, hsource.trans hx, hgrows hfind⟩

/-- The failure, whatever its position. -/
def Failure.unplaced : Failure → Failure
  | .rejected r => .rejected { r with loc := {} }
  | e => e

namespace Terms

variable (T : Terms)

def Near (loc loc' : Loc) : Prop := T.exact → loc = loc'

def Level (line line' : UInt32) : Prop := T.exact → line = line'

/-- The failures differ in their positions alone. -/
def Fails (e e' : Failure) : Prop := e.unplaced = e'.unplaced ∧ (T.exact → e = e')

theorem near_move (loc : Loc) : T.Near loc (T.move loc) := fun h => by rw [T.move_eq h, id]

variable {T : Terms}

theorem Near.refl {loc : Loc} : T.Near loc loc := fun _ => rfl

theorem Level.refl {line : UInt32} : T.Level line line := fun _ => rfl

theorem Near.line {loc loc' : Loc} (h : T.Near loc loc') : T.Level loc.line loc'.line :=
  fun hexact => congrArg Loc.line (h hexact)

end Terms

/-- How two computations can come out: with equal results, with the same failure, or with a failure
that excuses the first. -/
inductive Meets {α : Type} (T : Terms) (P : α → Session → Session → Prop) :
    Except Failure (α × Session) → Except Failure (α × Session) → Prop
  | ok (a : α) {t t' : Session} : P a t t' → Meets T P (.ok (a, t)) (.ok (a, t'))
  | error {e e' : Failure} : T.Fails e e' → Meets T P (.error e) (.error e')
  | excuse {e : Failure} (r : Except Failure (α × Session)) : T.excused e → Meets T P (.error e) r

namespace Meets

variable {α β : Type} {T : Terms} {P : α → Session → Session → Prop} {Q : β → Session → Session → Prop}

theorem same (e : Failure) : Meets T P (.error e) (.error e) := .error ⟨rfl, fun _ => rfl⟩

theorem mono {P' : α → Session → Session → Prop} {r r' : Except Failure (α × Session)}
    (h : Meets T P r r') (hP : ∀ a t t', P a t t' → P' a t t') : Meets T P' r r' := by
  cases h with
  | ok a h => exact .ok a (hP _ _ _ h)
  | error h => exact .error h
  | excuse _ h => exact .excuse _ h

theorem bind {x y : Emit α} {f g : α → Emit β} {s s' : Session} (h : Meets T P (x s) (y s'))
    (hf : ∀ a t t', P a t t' → Meets T Q (f a t) (g a t')) :
    Meets T Q ((x >>= f) s) ((y >>= g) s') := by
  rw [show (x >>= f) s = (x s).bind fun p => f p.1 p.2 from rfl,
    show (y >>= g) s' = (y s').bind fun p => g p.1 p.2 from rfl]
  generalize x s = r at h
  generalize y s' = r' at h
  cases h with
  | ok a h => exact hf a _ _ h
  | error h => exact .error h
  | excuse _ h => exact .excuse _ h

end Meets

namespace Terms

variable (T : Terms)

/-- Sessions that are alike, in frames whose source has the name. -/
structure Pair (name : String) (s s' : Session) : Prop where
  like : ∃ d, s' = { s with frame := d } ∧ s.frame.Like T.alike d
  sourced : s.Sourced name
  settled : s.Settled T.folder

/-- From sessions that are alike the two actions lead to sessions that are alike. The name of the
source is `n` before and `m` after. -/
def Parallel {α : Type} (n m : String) (x y : Emit α) : Prop :=
  ∀ ⦃s s'⦄, T.Pair n s s' →
    Meets T (fun _ t t' => T.Pair m t t' ∧ s.symbols.Grows t.symbols) (x s) (y s')

/-- One action on both sides. -/
abbrev Alone {α : Type} (n : String) (x : Emit α) : Prop := T.Parallel n n x x

/-- The action of each side's version. -/
abbrev Each {α : Type} (n : String) (f : Version → Emit α) : Prop := T.Parallel n n (f T.left) (f T.right)

/-- The action of each side's version and position. -/
abbrev Both {α : Type} (n : String) (f : Version → Loc → Emit α) : Prop :=
  ∀ {loc loc'}, T.Near loc loc' → T.Parallel n n (f T.left loc) (f T.right loc')

/-- As `Parallel`, for actions that also change a draft, which keeps its source. -/
def ParallelDraft (n m : String) (p p' : Draft → Emit Draft) : Prop :=
  ∀ child ⦃s s'⦄, T.Pair n s s' → Meets T (fun child' t t' => T.Pair m t t' ∧
    s.symbols.Grows t.symbols ∧ child'.source = child.source) (p child s) (p' child s')

/-- As `Parallel`, where the draft of a subroutine was begun while the source had the name `k`. -/
def ParallelIn {α : Type} (child : Draft) (k n m : String) (x y : Emit α) : Prop :=
  ∀ ⦃s s'⦄, T.Pair n s s' → Session.Sourced k { s with frame := child } →
    Meets T (fun _ t t' => T.Pair m t t' ∧ s.symbols.Grows t.symbols) (x s) (y s')

end Terms

namespace Terms.Parallel

variable {T : Terms} {α β : Type} {n k m : String} {loc loc' : Loc} {line line' : UInt32}

theorem pure (a : α) : T.Alone n (Pure.pure a) := fun _ _ h => .ok a ⟨h, .refl _⟩

theorem bind {x y : Emit α} {f g : α → Emit β} (hx : T.Parallel n k x y)
    (hf : ∀ a, T.Parallel k m (f a) (g a)) : T.Parallel n m (x >>= f) (y >>= g) := by
  intro s s' h
  refine (hx h).bind fun a t t' ht => (hf a ht.1).mono fun _ _ _ hu => ?_
  exact ⟨hu.1, ht.2.trans hu.2⟩

theorem discard {x y : Emit α} (h : T.Parallel n m x y) :
    T.Parallel n m (Functor.discard x) (Functor.discard y) :=
  bind (f := fun _ => Pure.pure ()) (g := fun _ => Pure.pure ()) h fun _ => pure ()

theorem ite {c : Prop} [Decidable c] {x y x' y' : Emit α} (hx : T.Parallel n m x x')
    (hy : T.Parallel n m y y') :
    T.Parallel n m (if c then x else y) (if c then x' else y') := by
  split
  · exact hx
  · exact hy

theorem reject (hloc : T.Near loc loc') (cause : Cause) :
    T.Parallel n m (Emit.reject loc cause : Emit α) (Emit.reject loc' cause) := by
  intro s s' h
  obtain ⟨d, rfl, code, rfl, -⟩ := h.like
  exact .error ⟨rfl, fun hexact => by rw [hloc hexact]; rfl⟩

theorem require (c : Bool) (hloc : T.Near loc loc') (cause : Cause) :
    T.Parallel n n (Emit.require c loc cause) (Emit.require c loc' cause) :=
  ite (pure ()) (reject hloc cause)

theorem forM {f f' : α → Emit Unit} (xs : List α) (h : ∀ a, T.Parallel n n (f a) (f' a)) :
    T.Parallel n n (xs.forM f) (xs.forM f') := by
  induction xs with
  | nil => exact pure ()
  | cons a xs ih => exact bind (h a) fun _ => ih

theorem mapM {f : α → Emit β} (xs : List α) (h : ∀ a, T.Alone n (f a)) : T.Alone n (xs.mapM f) := by
  induction xs with
  | nil => exact pure []
  | cons a xs ih =>
    rw [List.mapM_cons]
    exact bind (h a) fun _ => bind ih fun _ => pure _

theorem frame {f g : Draft → Emit α}
    (h : ∀ d d', d.Like T.alike d' → T.Parallel n m (f d) (g d')) :
    T.Parallel n m (Emit.frame >>= f) (Emit.frame >>= g) := by
  intro s s' hs
  obtain ⟨d, rfl, hd⟩ := hs.like
  exact h s.frame d hd hs

theorem get {f g : Session → Emit α}
    (h : ∀ s d, s.frame.Like T.alike d → T.Parallel n m (f s) (g { s with frame := d })) :
    T.Parallel n m (MonadState.get >>= f) (MonadState.get >>= g) := by
  intro s s' hs
  obtain ⟨d, rfl, hd⟩ := hs.like
  exact h s d hd hs

theorem change {f : Session → Session}
    (hcode : ∀ s code, f { s with frame := { s.frame with code := code } } =
      { f s with frame := { (f s).frame with code := code } })
    (hsource : ∀ s, (f s).frame.source = s.frame.source) (hsymbols : ∀ s, (f s).symbols = s.symbols)
    (hfolder : ∀ s, (f s).includeFolder = s.includeFolder) :
    T.Alone n (modify f) := by
  intro s s' h
  obtain ⟨d, rfl, code, rfl, hlike⟩ := h.like
  have hown : f s = { f s with frame := { (f s).frame with code := s.frame.code } } :=
    hcode s s.frame.code
  have hgrows : s.symbols.Grows (f s).symbols := by
    rw [hsymbols]
    exact .refl _
  refine .ok () ⟨⟨⟨_, hcode s code, code, rfl, ?_⟩, h.sourced.mono (hsource s) hgrows,
    fun folder hf => ?_⟩, hgrows⟩
  · rw [hown]
    exact hlike
  · rw [hfolder]
    exact h.settled folder hf

theorem warn (w : Warning) : T.Alone n (Emit.warn w) := by
  refine change (fun s code => ?_) (fun s => ?_) (fun s => ?_) fun s => ?_
  all_goals split <;> rfl

theorem interned {step : SymbolTable → Symbol × SymbolTable}
    (h : ∀ t, SymbolTable.Grows t (step t).2) :
    T.Alone n (Emit.interned step) := by
  intro s s' hs
  obtain ⟨d, rfl, hd⟩ := hs.like
  exact .ok _ ⟨⟨⟨d, rfl, hd⟩, hs.sourced.mono rfl (h _), hs.settled⟩, h _⟩

theorem symbol (name : String) : T.Alone n (Emit.symbol name) :=
  interned fun t => t.intern_grows _ _

theorem plainSymbol (name : String) : T.Alone n (Emit.plainSymbol name) :=
  interned fun t => t.intern_grows _ _

theorem stringSymbol (content : String) (bytePerChar : Bool) :
    T.Alone n (Emit.stringSymbol content bytePerChar) :=
  interned fun t => t.intern_grows _ _

theorem operatorSymbol (internal : Bool) (text : String) :
    T.Alone n (Emit.operatorSymbol internal text) :=
  ite (symbol text) (plainSymbol text)

theorem temporary (stem : String) : T.Alone n (Emit.temporary stem) := by
  intro s s' hs
  obtain ⟨d, rfl, hd⟩ := hs.like
  have hnext : T.Pair n { s with symbols := (s.symbols.nextTemporary stem).2 }
      { s with symbols := (s.symbols.nextTemporary stem).2, frame := d } :=
    ⟨⟨d, rfl, hd⟩, hs.sourced.mono rfl fun _ _ h => h, hs.settled⟩
  exact (plainSymbol _ hnext).mono fun _ _ _ h => ⟨h.1, fun _ _ hx => h.2 hx⟩

theorem splitPath (name : String) : T.Alone n (Emit.splitPath name) := by
  unfold Emit.splitPath
  refine bind (symbol name) fun full => ?_
  split
  · exact bind (mapM _ symbol) fun _ => pure _
  · exact pure _

theorem pathSymbols (name : String) : T.Alone n (Emit.pathSymbols name) :=
  bind (splitPath name) fun _ => pure _

theorem define (kind : MemberKind) (symbol : Symbol) : T.Alone n (Emit.define kind symbol) := by
  intro s s' hs
  obtain ⟨d, rfl, hd⟩ := hs.like
  exact .ok _ ⟨⟨⟨d, rfl, hd⟩, hs.sourced, hs.settled⟩, .refl _⟩

theorem onFrame {step : Drafting α} (hstep : step.Blind) : T.Alone n (Emit.onFrame step) := by
  intro s s' hs
  obtain ⟨d, rfl, hd⟩ := hs.like
  unfold Emit.onFrame
  dsimp only
  cases h : step s.frame with
  | error x =>
    rw [hstep.error hd h]
    exact .same _
  | ok r =>
    obtain ⟨a, e⟩ := r
    obtain ⟨e', he', hlike⟩ := hstep.like hd h
    rw [he']
    exact .ok a ⟨⟨⟨e', rfl, hlike⟩, hs.sourced.mono (hstep.source_eq h) (.refl _), hs.settled⟩,
      .refl _⟩

theorem effect_eq (op : Operation) : op.effect T.left = op.effect T.right := by
  have hframe : ∀ (frame : Frame) isValue, frame.effect T.left isValue = frame.effect T.right isValue := by
    intro frame isValue
    rw [Frame.effect, Frame.effect, T.has_eq .subroutineConsumesStack rfl]
  cases op with
  | named kind x =>
    cases kind with
    | attributeDefine =>
      simp only [Operation.effect, Named.effect, T.has_eq .attributeDefinePops rfl]
    | _ => rfl
  | subroutine name frame isMethod => simp only [Operation.effect, hframe]
  | _ => rfl

theorem add_like {op op' : Operation} (heffect : op.effect T.left = op'.effect T.right)
    (h : T.alike ⟨line, op⟩ ⟨line', op'⟩) :
    T.Parallel n n (Emit.add T.left op line) (Emit.add T.right op' line') := by
  intro s s' hs
  obtain ⟨d, rfl, hd⟩ := hs.like
  unfold Emit.add Emit.onFrame Draft.add
  dsimp only
  rw [← heffect]
  cases op.effect T.left with
  | error x => exact .same _
  | ok moves =>
    dsimp only
    rw [← hd.size_eq]
    have hdepth : d.depth = s.frame.depth := by
      obtain ⟨code, rfl, -⟩ := hd
      rfl
    rw [hdepth]
    exact .ok _ ⟨⟨⟨_, rfl, hd.push h _⟩, hs.sourced, hs.settled⟩, .refl _⟩

theorem add (op : Operation) (hline : T.Level line line') :
    T.Parallel n n (Emit.add T.left op line) (Emit.add T.right op line') :=
  add_like (effect_eq op) (T.matching.same op hline)

theorem emit (op : Operation) (hline : T.Level line line') :
    T.Parallel n n (Emit.emit T.left op line) (Emit.emit T.right op line') := discard (add op hline)

theorem emitSubroutine {d d' : Draft} (h : d.Like T.alike d') (name : Option Symbol)
    (isMethod : Bool) (hline : T.Level line line') :
    T.Parallel n n (Emit.emit T.left (.subroutine name d.finish isMethod) line)
      (Emit.emit T.right (.subroutine name d'.finish isMethod) line') := by
  obtain ⟨code, rfl, hcode⟩ := h
  exact discard (add_like (effect_eq (.subroutine name d.finish isMethod))
    (T.matching.subroutine hline hcode))

theorem emitUntracked (op : Operation) (line : UInt32) :
    T.Alone n (Emit.emitUntracked op line) := by
  refine discard fun s s' hs => ?_
  obtain ⟨d, rfl, hd⟩ := hs.like
  unfold Emit.onFrame Draft.append
  dsimp only
  rw [← hd.size_eq]
  have hpush := hd.push (T.matching.same op (Level.refl : T.Level line line)) s.frame.depth
  have hdepth : d = { d with depth := s.frame.depth } := by
    obtain ⟨code, rfl, -⟩ := hd
    rfl
  rw [hdepth]
  exact .ok _ ⟨⟨⟨_, rfl, hpush⟩, hs.sourced, hs.settled⟩, .refl _⟩

theorem here : T.Alone n Emit.here := by
  intro s s' hs
  obtain ⟨d, rfl, hd⟩ := hs.like
  unfold Emit.here
  rw [← hd.size_eq]
  exact .ok _ ⟨⟨⟨d, rfl, hd⟩, hs.sourced, hs.settled⟩, .refl _⟩

theorem patch (jump target : Nat) : T.Alone n (Emit.patch jump target) := by
  intro s s' hs
  obtain ⟨d, rfl, hd⟩ := hs.like
  unfold Emit.patch Emit.onFrame
  rcases hd.patch T.matching jump target with ⟨x, h, h'⟩ | ⟨e, e', h, h', hlike, hsource⟩
  · rw [h, h']
    exact .same _
  · rw [h, h']
    exact .ok _ ⟨⟨⟨e', rfl, hlike⟩, hs.sourced.mono hsource (.refl _), hs.settled⟩, .refl _⟩

theorem patchHere (jump : Nat) : T.Alone n (Emit.patchHere jump) :=
  bind here fun _ => patch _ _

theorem patchAll (jumps : List Nat) (target : Nat) : T.Alone n (Emit.patchAll jumps target) :=
  forM _ fun _ => patch _ _

theorem jump (kind : Jump) (hline : T.Level line line') :
    T.Parallel n n (Emit.jump T.left kind line) (Emit.jump T.right kind line') := add _ hline

theorem jumpTo (target : Nat) (hline : T.Level line line') :
    T.Parallel n n (Emit.jumpTo T.left target line) (Emit.jumpTo T.right target line') := emit _ hline

theorem takeBreaks : T.Alone n Emit.takeBreaks :=
  onFrame (Draft.updateScope_blind _)

theorem takeContinues : T.Alone n Emit.takeContinues :=
  onFrame (Draft.updateScope_blind _)

theorem pushScope (kind : ScopeKind) : T.Alone n (Emit.pushScope kind) :=
  onFrame (Draft.pushScope_blind _)

end Terms.Parallel

end Adhoc
