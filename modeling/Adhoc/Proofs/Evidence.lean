import Adhoc.Proofs.Likeness
import Adhoc.Proofs.RunInvariant

namespace Adhoc

open Emit List Draft Operation Instruction

variable {β α : Type} {op : Operation} {line : UInt32} {v : Version} {ins : Instruction}
  {p : Operation → Bool} {name : Option Symbol} {k n : Nat} {D E : Signs} {x : Emit α}
  {f : α → Emit β} {step : Drafting α} {isMethod : Bool} {w : Warning}

namespace Operation

/-- Whether the version lacks the operation. -/
def isForeign (v : Version) (op : Operation) : Bool := !op.isAdmitted v

/-- The newer forms that are also emitted where no choice is made. -/
def isDirect : Operation → Bool
  | .simple .assign | .simple .pop | .simple .assignPop | .simple .voidConst => true
  | _ => false

/-- Whether the version lacks the operation although its form is always chosen. -/
def isStrange (v : Version) (op : Operation) : Bool := op.isForeign v && !op.isDirect

end Operation

/-- The operation that a warning is about. What is awaited has none of its own. -/
def Warning.opcode? : Warning → Option Opcode
  | .await => none
  | .variadicCall => some .vaCall
  | .optional => some .logicalOptional
  | .coalesce => some .jumpIfNil
  | .delegate => some .delegateDefine

/-- The warnings about an operation. -/
def Warning.about (c : Opcode) : Set Warning := {w | w.opcode? = some c}

theorem Warning.about_of_opcode {c : Opcode} (h : w.opcode? = some c) : about c = {w} := by
  ext w'
  refine ⟨fun h' => ?_, fun h' => h' ▸ h⟩
  cases w <;> cases h <;> cases w' <;> first | rfl | cases h'

/-- What an operation is to the classes and modules around it. -/
inductive Bracket
  | opens
  | closes (modules : Int)
  | exits
  | routine (frame : Frame)
  | other

/-- Only a scope that belongs to a class or module is left with a number of modules. -/
def Operation.bracket : Operation → Bracket
  | .pathed .moduleDefine _ | .classDefine _ _ => .opens
  | .leave modules _ => if modules = 0 then .other else .closes modules
  | .setState .exit => .exits
  | .subroutine _ frame _ => .routine frame
  | _ => .other

def Frame.brackets (f : Frame) : List Bracket := f.code.map (·.operation.bracket)

/-- Balanced code inside of so many bodies of classes and modules. A body is closed under the number of
bodies that are open in it, itself included, and it exits right after that. The frame of a subroutine
is inside of the bodies around the operation that holds it. -/
inductive Nested : Nat → List Bracket → Prop
  | nil {k : Nat} : Nested k []
  | other {k : Nat} {rest : List Bracket} : Nested k rest → Nested k (.other :: rest)
  | exits {k : Nat} {rest : List Bracket} : Nested k rest → Nested k (.exits :: rest)
  | routine {k : Nat} {frame : Frame} {rest : List Bracket} : Nested k frame.brackets →
    Nested k rest → Nested k (.routine frame :: rest)
  | body {k : Nat} {inner rest : List Bracket} : Nested (k + 1) inner → Nested k rest →
    Nested k (.opens :: (inner ++ .closes (k + 1) :: .exits :: rest))

theorem Nested.append {bs cs : List Bracket} (h : Nested k bs) (h' : Nested k cs) :
    Nested k (bs ++ cs) := by
  induction h with
  | nil => exact h'
  | other _ ih => exact .other (ih h')
  | exits _ ih => exact .exits (ih h')
  | routine hf _ _ ih => exact .routine hf (ih h')
  | body hinner _ _ ih =>
    rw [cons_append, append_assoc]
    exact .body hinner (ih h')

namespace Operation

/-- Whether the operation holds no code, opens and closes no class or module, and nothing is warned of
with it. -/
def isUnmarked : Operation → Bool
  | .simple op => op != .logicalOptional
  | .jump kind _ => kind != .ifNil
  | .counted op _ => op != .vaCall
  | .named op _ => op != .delegateDefine
  | .pathed op _ => op != .moduleDefine
  | .leave modules _ => modules == 0
  | .classDefine .. | .subroutine .. | .unverified _ => false
  | _ => true

theorem frames_of_isUnmarked (h : op.isUnmarked = true) : op.frames = [] := by
  cases op <;> first | rfl | cases h

theorem about_of_isUnmarked (h : op.isUnmarked = true) : Warning.about op.opcode = ∅ := by
  refine Set.eq_empty_of_forall_notMem fun w hw => ?_
  cases op with
  | simple o | jump o _ | counted o _ | named o _ | pathed o _ | «variable» o _ _ | constant o =>
    cases w <;> cases o <;> first | (cases hw; done) | cases h
  | subroutine | unverified => cases h
  | _ => cases w <;> cases hw

theorem nested_of_isUnmarked (h : op.isUnmarked = true) (k : Nat) : Nested k [op.bracket] := by
  cases op with
  | pathed o _ => cases o <;> first | exact .other .nil | cases h
  | leave modules _ =>
    rw [bracket, if_pos (eq_of_beq h)]
    exact .other .nil
  | setState state => cases state <;> first | exact .other .nil | exact .exits .nil
  | classDefine | subroutine => cases h
  | _ => exact .other .nil

end Operation

/-- Whether the operation is of the kind, or one in the frames that come with it. -/
def Instruction.has (p : Operation → Bool) (ins : Instruction) : Bool :=
  p ins.operation || ins.frames.any fun g => g.code.any fun ins => p ins.operation

theorem Instruction.has_of_frames (h : op.frames = []) : Instruction.has p ⟨line, op⟩ = p op := by
  rw [has, Instruction.frames, h, any_nil, Bool.or_false]

namespace Draft

/-- Some operation in the code so far is of the kind. -/
def Has (p : Operation → Bool) (d : Draft) : Prop := ∃ ins ∈ d.code.toList, ins.has p = true

variable {d e : Draft}

theorem not_has_of_empty (h : d.code = #[]) : ¬ d.Has p := by
  simp [Has, h]

theorem has_push (h : e.code = d.code.push ins) : e.Has p ↔ d.Has p ∨ ins.has p = true := by
  simp [Has, h, or_and_right, exists_or]

theorem map_patch {q : Instruction → β} {index target : Nat}
    (hq : ∀ line kind t t', q ⟨line, .jump kind t⟩ = q ⟨line, .jump kind t'⟩)
    (h : patch index target d = .ok ((), e)) : e.code.toList.map q = d.code.toList.map q := by
  unfold patch at h
  cases hins : d.code[index]? with
  | none => simp [hins] at h
  | some ins =>
    cases hop : ins.operation.withTarget? target with
    | none => simp [hins, hop] at h
    | some op =>
      simp only [hins, hop, Except.ok.injEq, Prod.mk.injEq, true_and] at h
      have hsame : q { ins with operation := op } = q ins := by
        obtain ⟨line, old⟩ := ins
        cases old <;> cases hop
        exact hq _ _ _ _
      obtain ⟨hlt, rfl⟩ := Array.getElem?_eq_some_iff.1 hins
      have hindex : index < (d.code.toList.map q).length := by simpa using hlt
      have hget : (d.code.toList.map q)[index] = q d.code[index] := by simp
      rw [← h, Array.toList_setIfInBounds, map_set, hsame, ← hget, set_getElem_self]

theorem has_of_map (h : e.code.toList.map (Instruction.has p) = d.code.toList.map (Instruction.has p)) :
    e.Has p ↔ d.Has p := by
  have hiff (x : Draft) : x.Has p ↔ true ∈ x.code.toList.map (Instruction.has p) := by simp [Has]
  rw [hiff, hiff, h]

theorem has_finish : d.Has p ↔
    ∃ g ∈ d.finish.preorder, ∃ ins ∈ g.code, p ins.operation = true := by
  have h := d.finish.any_preorder p
  rw [Bool.eq_iff_iff] at h
  simp only [any_eq_true] at h
  exact h.symm

theorem has_subroutine (line : UInt32) (hp : ∀ g, p (.subroutine name g isMethod) = false) :
    Instruction.has p ⟨line, .subroutine name d.finish isMethod⟩ = true ↔ d.Has p := by
  rw [Instruction.has, hp, has_finish]
  simp [Instruction.frames, Operation.frames]

/-- The brackets of the code so far. -/
def brackets (d : Draft) : List Bracket := d.code.toList.map (·.operation.bracket)

theorem brackets_push (h : e.code = d.code.push ins) :
    e.brackets = d.brackets ++ [ins.operation.bracket] := by
  simp [brackets, h]

end Draft

/-- What a run from one state to the other shows: the signs, the warnings that have come with
operations, those that have been raised, and the brackets of its code. -/
structure Evidence (v : Version) (D : Signs) (B W : Set Warning) (bs : List Bracket) (s t : Session) :
    Prop where
  looks : ∀ ⦃f⦄, t.Looks f → s.Looks f
  since : ∀ ⦃f n⦄, t.Looks f → .since n ∈ D f → n ≤ v.number
  foreign : ∀ ⦃f⦄, t.Looks f →
    (t.frame.Has (Operation.isForeign v) ↔ s.frame.Has (Operation.isForeign v) ∨ .foreign ∈ D f)
  strange : t.frame.Has (Operation.isStrange v) → s.frame.Has (Operation.isStrange v)
  brought : ∀ ⦃w c⦄, w.opcode? = some c →
    (t.frame.Has (·.opcode == c) ↔ s.frame.Has (·.opcode == c) ∨ w ∈ B)
  warned : ∀ w, w ∈ t.warnings ↔ w ∈ s.warnings ∨ w ∈ W
  brackets : t.frame.brackets = s.frame.brackets ++ bs

namespace Evidence

variable {B B' W W' : Set Warning} {bs bs' : List Bracket} {s r t : Session}

theorem of_map (hfolder : ∀ f, s.includeFolder = some f → t.includeFolder = some f)
    (hwarnings : t.warnings = s.warnings)
    (h : ∀ {β : Type} {q : Instruction → β},
      (∀ line kind t t', q ⟨line, .jump kind t⟩ = q ⟨line, .jump kind t'⟩) →
      t.frame.code.toList.map q = s.frame.code.toList.map q) : Evidence v ⊥ ∅ ∅ [] s t where
  looks f ht := by
    cases hs : s.includeFolder with
    | none => exact .inl hs
    | some g => exact .inr (hs.trans ((hfolder g hs).symm.trans (ht.resolve_left (by simp [hfolder g hs]))))
  since _ _ _ h := h.elim
  foreign _ _ := (has_of_map (h fun _ _ _ _ => rfl)).trans (or_iff_left id).symm
  strange := (has_of_map (h fun _ _ _ _ => rfl)).1
  brought _ _ _ := (has_of_map (h fun _ _ _ _ => rfl)).trans (or_iff_left id).symm
  warned w := by rw [hwarnings, or_iff_left (Set.notMem_empty w)]
  brackets := by rw [Draft.brackets, h fun _ _ _ _ => rfl, append_nil, Draft.brackets]

theorem of_still (h : Still s t) (hwarnings : t.warnings = s.warnings) : Evidence v ⊥ ∅ ∅ [] s t :=
  of_map h.folder hwarnings fun _ => by rw [h.code]

theorem trans (h : Evidence v D B W bs s r) (h' : Evidence v E B' W' bs' r t) :
    Evidence v (D ⊔ E) (B ∪ B') (W ∪ W') (bs ++ bs') s t where
  looks _ ht := h.looks (h'.looks ht)
  since _ _ ht he := he.elim (h.since (h'.looks ht)) (h'.since ht)
  foreign f ht := by
    rw [h'.foreign ht, h.foreign (h'.looks ht), or_assoc]
    exact Iff.rfl
  strange ht := h.strange (h'.strange ht)
  brought w c hw := by rw [h'.brought hw, h.brought hw, or_assoc, Set.mem_union]
  warned w := by rw [h'.warned, h.warned, or_assoc, Set.mem_union]
  brackets := by rw [h'.brackets, h.brackets, append_assoc]

end Evidence

/-- What a step shows that warns of these besides: its other warnings come with their operations, and
the same classes and modules are open after it. -/
def Evidenced (v : Version) (W : Set Warning) (D : Signs) (s t : Session) : Prop :=
  ∃ U bs, Evidence v D U (W ∪ U) bs s t ∧ ∀ k, s.modules.depth = k + 1 →
    t.modules.depth = k + 1 ∧ (v.has .leave = true → Nested k bs)

theorem Evidenced.of_bare {s t : Session} (hdepth : t.modules.depth = s.modules.depth)
    (h : Evidence v ⊥ ∅ ∅ [] s t) : Evidenced v ∅ ⊥ s t :=
  ⟨∅, [], by rwa [Set.union_empty], fun _ hk => ⟨hdepth.trans hk, fun _ => .nil⟩⟩

theorem Evidenced.trans {W W' : Set Warning} {s r t : Session} (h : Evidenced v W D s r)
    (h' : Evidenced v W' E r t) : Evidenced v (W ∪ W') (D ⊔ E) s t := by
  obtain ⟨U, bs, hevidence, hnested⟩ := h
  obtain ⟨U', bs', hevidence', hnested'⟩ := h'
  refine ⟨U ∪ U', bs ++ bs', ?_, fun k hk => ?_⟩
  · rw [Set.union_union_union_comm]
    exact hevidence.trans hevidence'
  · obtain ⟨hdepth, hbs⟩ := hnested k hk
    obtain ⟨hdepth', hbs'⟩ := hnested' k hdepth
    exact ⟨hdepth', fun hv => (hbs hv).append (hbs' hv)⟩

/-- Every run of the action that succeeds shows the signs, and it warns of these besides. -/
def Owes {α : Type} (v : Version) (W : Set Warning) (D : Signs) (x : Emit α) : Prop :=
  ∀ ⦃s a t⦄, x s = .ok (a, t) → Evidenced v W D s t

/-- Every run of the action that succeeds shows the signs. -/
def Evinces {α : Type} (v : Version) (D : Signs) (x : Emit α) : Prop := Owes v ∅ D x

/-- The action gives a draft with the code that it was given. -/
def LeavesCode (x : Draft → Emit Draft) : Prop :=
  ∀ ⦃child s d t⦄, x child s = .ok (d, t) → d.code = child.code

/-- The action gets a draft ready and shows the signs besides. -/
structure EvincesIn (v : Version) (D : Signs) (x : Draft → Emit Draft) : Prop where
  evinces : ∀ child, Evinces v D (x child)
  code : LeavesCode x

namespace Evinces

variable {cause : Cause} {loc : Loc}

open Emit

theorem neutral (h : Neutral x) : Evinces v ⊥ x := by
  intro s a t hr
  have hidle := h hr
  exact .of_bare (congrArg List.length hidle.path) (.of_still hidle.still hidle.warnings)

theorem pure (a : α) : Evinces v ⊥ (Pure.pure a) := neutral (.pure a)

theorem bind (hx : Evinces v D x) (hf : ∀ a, Evinces v E (f a)) : Evinces v (D ⊔ E) (x >>= f) := by
  intro s b t h
  obtain ⟨a, r, h1, h2⟩ := bind_ok.1 h
  exact Set.union_empty ∅ ▸ (hx h1).trans (hf a h2)

theorem own (hx : Evinces v ⊥ x) (hf : ∀ a, Evinces v D (f a)) :
    Evinces v D (x >>= f) := bot_sup_eq D ▸ bind hx hf

theorem last (hx : Evinces v D x) (hf : ∀ a, Evinces v ⊥ (f a)) :
    Evinces v D (x >>= f) := sup_bot_eq D ▸ bind hx hf

theorem discard (h : Evinces v D x) : Evinces v D (Functor.discard x) := by
  intro s u t hr
  obtain ⟨a, hr⟩ := discard_ok.1 hr
  exact h hr

theorem ite {c : Prop} [Decidable c] {y : Emit α} (hx : c → Evinces v D x) (hy : ¬ c → Evinces v D y) :
    Evinces v D (if c then x else y) := by
  split
  · exact hx ‹_›
  · exact hy ‹_›

theorem reject {loc : Loc} {c : Cause} : Evinces v D (Emit.reject loc c : Emit α) :=
  fun _ _ _ h => (reject_ok.1 h).elim

theorem require {c : Bool} {loc : Loc} {cause : Cause} : Evinces v ⊥ (Emit.require c loc cause) :=
  neutral .require

theorem required {c : Bool} (hx : c = true → Evinces v D x) :
    Evinces v D (do
      Emit.require c loc cause
      x) := require_bind reject hx

theorem since {c : Capability} (hc : c.span = (n, 13)) (hx : v.has c = true → Evinces v D x) :
    Evinces v ((fun _ => {.since n}) ⊔ D) (do
      Emit.require (v.has c) loc cause
      x) := by
  refine required fun hhas s a t h => ?_
  obtain ⟨U, bs, hevidence, hnested⟩ := hx hhas h
  refine ⟨U, bs, { hevidence with since := fun f k ht he => ?_, foreign := fun f ht => ?_ }, hnested⟩
  · rcases he with he | he
    · cases he
      have hle := (Version.has_iff (by rw [hc]) v).1 hhas
      rwa [hc] at hle
    · exact hevidence.since ht he
  · exact (hevidence.foreign ht).trans (or_congr_right ⟨.inr, fun he => he.resolve_left nofun⟩)

theorem onFrame (h : step.Blind) : Evinces v ⊥ (Emit.onFrame step) := by
  intro s a t hr
  obtain ⟨d, hd, rfl⟩ := onFrame_ok.1 hr
  exact .of_bare rfl (.of_map (fun _ hf => hf) rfl fun _ => by rw [h.code_eq hd])

theorem forM {f : α → Emit Unit} (l : List α) (h : ∀ a, Evinces v ⊥ (f a)) : Evinces v ⊥ (l.forM f) := by
  induction l with
  | nil => exact pure ()
  | cons a l ih => exact own (h a) fun _ => ih

end Evinces

namespace Evidence

variable {s t : Session}

theorem pushed (h : t.frame.code = s.frame.code.push ins)
    (hfolder : t.includeFolder = s.includeFolder) (hwarnings : t.warnings = s.warnings)
    (hstrange : ¬ ins.has (Operation.isStrange v) = true) :
    Evidence v (.foreign (ins.has (Operation.isForeign v) = true))
      {w | ∃ c, w.opcode? = some c ∧ ins.has (·.opcode == c) = true} ∅ [ins.operation.bracket] s t where
  looks f ht := by rwa [Session.Looks, ← hfolder]
  since _ _ _ he := nomatch he.1
  foreign _ _ := by rw [has_push h, Signs.mem_foreign]
  strange ht := ((has_push h).1 ht).resolve_right hstrange
  brought w c hw := by simp [has_push h, hw]
  warned w := by simp [hwarnings]
  brackets := brackets_push h

/-- An operation without code of its own is appended. -/
theorem appended (h : t.frame.code = s.frame.code.push ⟨line, op⟩)
    (hfolder : t.includeFolder = s.includeFolder) (hwarnings : t.warnings = s.warnings)
    (hf : op.frames = []) (hstrange : op.isStrange v = false) :
    Evidence v (.foreign (op.isForeign v = true)) (Warning.about op.opcode) ∅ [op.bracket] s t := by
  have hpushed := pushed (v := v) h hfolder hwarnings
    (by rw [has_of_frames hf, hstrange]; exact Bool.false_ne_true)
  have hset : {w : Warning | ∃ c, w.opcode? = some c ∧ Instruction.has (·.opcode == c) ⟨line, op⟩ = true} =
      Warning.about op.opcode := by
    ext w
    constructor
    · rintro ⟨c, hw, hc⟩
      rw [has_of_frames hf] at hc
      exact hw.trans (congrArg some (eq_of_beq hc).symm)
    · intro hw
      exact ⟨_, hw, by rw [has_of_frames hf]; exact beq_self_eq_true _⟩
  rwa [has_of_frames hf, hset] at hpushed

theorem emitted (h : Emit.add v op line s = .ok (k, t)) (hop : op.isAdmitted v = true)
    (hf : op.frames = []) :
    Evidence v ⊥ (Warning.about op.opcode) ∅ [op.bracket] s t ∧ t.modules = s.modules := by
  obtain ⟨moves, -, -, rfl⟩ := add_ok.1 h
  have hforeign : op.isForeign v = false := by rw [isForeign, hop]; rfl
  have happended := appended (v := v)
    (t := { s with frame := s.frame.write ⟨line, op⟩ (s.frame.depth.follow moves) }) rfl rfl rfl hf
    (by rw [isStrange, hforeign]; rfl)
  rw [hforeign, Signs.foreign_of_not (by simp)] at happended
  exact ⟨happended, rfl⟩

end Evidence

namespace Evinces

open Emit

theorem pushed (line : UInt32) (hs : op.isUnmarked = true) (hstrange : op.isStrange v = false)
    (h : ∀ ⦃d a e⦄, step d = .ok (a, e) → e.code = d.code.push ⟨line, op⟩) :
    Evinces v (.foreign (op.isForeign v = true)) (Emit.onFrame step) := by
  intro s a t hr
  obtain ⟨d, hd, rfl⟩ := onFrame_ok.1 hr
  have happended := Evidence.appended (t := { s with frame := d }) (h hd) rfl rfl
    (frames_of_isUnmarked hs) hstrange
  rw [about_of_isUnmarked hs] at happended
  exact ⟨∅, _, by rwa [Set.union_empty], fun k hk => ⟨hk, fun _ => nested_of_isUnmarked hs k⟩⟩

theorem draft_add ⦃d : Draft⦄ ⦃a : Nat⦄ ⦃e : Draft⦄ (h : Draft.add v op line d = .ok (a, e)) :
    e.code = d.code.push ⟨line, op⟩ := by
  unfold Draft.add at h
  split at h <;> cases h
  rfl

theorem emitForeign (hop : op.isDirect = true) (hs : op.isUnmarked = true) (line : UInt32) :
    Evinces v (.foreign (op.isAdmitted v = false)) (Emit.emit v op line) := by
  have h := pushed (v := v) line hs (by simp [isStrange, hop]) (draft_add (v := v))
  rw [isForeign, Bool.not_eq_true'] at h
  exact discard h

/-- An operation that the version has. -/
theorem appended (line : UInt32) (hop : op.isAdmitted v = true) (hs : op.isUnmarked = true)
    (h : ∀ ⦃d a e⦄, step d = .ok (a, e) → e.code = d.code.push ⟨line, op⟩) :
    Evinces v ⊥ (Emit.onFrame step) := by
  have hforeign : op.isForeign v = false := by rw [isForeign, hop]; rfl
  have hpushed := pushed (v := v) line hs (by rw [isStrange, hforeign]; rfl) h
  rwa [hforeign, Signs.foreign_of_not (by simp)] at hpushed

theorem add (hop : op.isAdmitted v = true) (hs : op.isUnmarked = true) :
    Evinces v ⊥ (Emit.add v op line) := appended line hop hs draft_add

theorem emit (h : op.isAdmitted v = true) (hs : op.isUnmarked = true) :
    Evinces v ⊥ (Emit.emit v op line) := discard (add h hs)

theorem plain (h : op.span = (1, 13)) (hs : op.isUnmarked = true) :
    Evinces v ⊥ (Emit.emit v op line) := emit (isAdmitted_of_always h) hs

theorem emitUntracked (h : op.isAdmitted v = true) (hs : op.isUnmarked = true) :
    Evinces v ⊥ (Emit.emitUntracked op line) := by
  refine discard (appended line h hs fun d a e h => ?_)
  cases h
  rfl

theorem jump {kind : Jump} (h : kind.opcode.span = (1, 13)) :
    Evinces v ⊥ (Emit.jump v kind line) := by
  refine add (isAdmitted_of_always h) ?_
  cases kind <;> first | rfl | cases h

theorem jumpTo (target : Nat) (line : UInt32) : Evinces v ⊥ (Emit.jumpTo v target line) :=
  plain rfl rfl

theorem here : Evinces v ⊥ Emit.here := neutral .here

theorem patch (jump target : Nat) : Evinces v ⊥ (Emit.patch jump target) := by
  intro s a t hr
  obtain ⟨d, hd, rfl⟩ := onFrame_ok.1 hr
  exact .of_bare rfl (.of_map (fun _ hf => hf) rfl fun hq => map_patch hq hd)

theorem patchHere (jump : Nat) : Evinces v ⊥ (Emit.patchHere jump) := own here fun _ => patch _ _

theorem takeBreaks : Evinces v ⊥ Emit.takeBreaks := onFrame (updateScope_blind _)

theorem takeContinues : Evinces v ⊥ Emit.takeContinues := onFrame (updateScope_blind _)

theorem pushScope (kind : ScopeKind) : Evinces v ⊥ (Emit.pushScope kind) :=
  onFrame (pushScope_blind _)

theorem stateOperation_admitted (state : RunState) :
    (stateOperation v state).isAdmitted v = true ∧ (stateOperation v state).isUnmarked = true := by
  unfold stateOperation
  split
  · exact ⟨isAdmitted_of_has ‹_› rfl, rfl⟩
  · exact ⟨isAdmitted_of_lacks ‹_› rfl rfl, rfl⟩

theorem setState (state : RunState) : Evinces v ⊥ (Emit.setState v state) :=
  emit (stateOperation_admitted state).1 (stateOperation_admitted state).2

theorem bareReturn : Evinces v ⊥ (Emit.bareReturn v) :=
  emitUntracked (stateOperation_admitted _).1 (stateOperation_admitted _).2

theorem handOff (state : RunState) : Evinces v ⊥ (Emit.handOff v state) :=
  own (emitUntracked (stateOperation_admitted state).1 (stateOperation_admitted state).2) fun _ =>
    onFrame (dropDepth_blind 1)

theorem emptyReturn : Evinces v ⊥ (Emit.emptyReturn v) := by
  refine ite (fun _ => own ?_ fun _ => handOff .return) fun _ => bareReturn
  unfold Emit.void
  split
  · exact emit (isAdmitted_of_has ‹_› rfl) rfl
  · exact plain rfl rfl

theorem frameExit : Evinces v ⊥ (Emit.frameExit v) :=
  own (neutral .frame) fun _ => ite (fun _ => pure ()) fun _ => emptyReturn

theorem access (reach : Reach) (symbol : Symbol) (use : Access) (line : UInt32) :
    Evinces v ⊥ (Emit.access v reach symbol use line) := by
  refine own (onFrame (resolve_blind _ _)) fun index => ?_
  refine own (neutral (accessNames_neutral _)) fun names => plain ?_ rfl
  cases reach <;> rfl

theorem readName (name : String) (loc : Loc) : Evinces v ⊥ (Emit.readName v name loc) :=
  own (neutral (.symbol _)) fun _ => access _ _ _ _

theorem pushName (name : String) (loc : Loc) (declares : Bool) :
    Evinces v ⊥ (Emit.pushName v name loc declares) :=
  own (neutral (.symbol _)) fun _ => access _ _ _ _

theorem readTemporary (symbol : Symbol) (line : UInt32) :
    Evinces v ⊥ (Emit.readTemporary v symbol line) :=
  own (onFrame (localIndex_blind _)) fun _ => plain rfl rfl

theorem member (reach : Reach) (parts : List String) (loc : Loc) :
    Evinces v ⊥ (Emit.member v reach parts loc) := by
  refine own (neutral (.splitPath _)) fun names => own (onFrame (resolve_blind _ _)) fun _ => ?_
  refine plain ?_ rfl
  cases reach <;> rfl

theorem leaveScope (leaves : Bool) : Evinces v ⊥ (Emit.leaveScope v leaves) := by
  have hleave : Evinces v ⊥ (markLeave v leaves) := by
    refine ite (fun h => own (neutral .frame) fun f => ?_) fun _ => pure ()
    exact emit (isAdmitted_of_has (Bool.and_eq_true_iff.1 h).2 rfl) rfl
  refine own (onFrame popScope_blind) fun scope => ite (fun _ => ?_) fun _ => hleave
  exact own (neutral (freeAll_neutral _ _)) fun _ => hleave

theorem within {child : Draft} {body : Emit Unit} {f : Draft → Emit Unit}
    (hchild : child.code = #[]) (hbody : Evinces v D body) (hf : ∀ d, Evinces v ⊥ (f d)) :
    Evinces v D (do
      let d ← Emit.within child body
      f d
      Emit.emit v (.subroutine name d.finish isMethod) line) := by
  intro s _ t h
  obtain ⟨d, r, h1, h⟩ := bind_ok.1 h
  obtain ⟨u, hu, rfl, rfl⟩ := within_ok.1 h1
  obtain ⟨_, q, h2, h3⟩ := bind_ok.1 h
  obtain ⟨U, bs, hinner, hnested⟩ := hbody hu
  obtain ⟨U', bs', houter, hnested'⟩ := hf _ h2
  have hempty {p : Operation → Bool} : ¬ child.Has p := not_has_of_empty hchild
  have hop (g : Frame) : (subroutine name g isMethod).isForeign v = false := by
    rw [isForeign, isAdmitted_of_always]
    · rfl
    · cases name <;> cases isMethod <;> rfl
  have hstrange (g : Frame) : (subroutine name g isMethod).isStrange v = false := by
    rw [isStrange, hop, Bool.false_and]
  obtain ⟨k, hadd⟩ := discard_ok.1 h3
  obtain ⟨moves, -, -, rfl⟩ := add_ok.1 hadd
  have hdefine := houter.trans (Evidence.pushed (v := v) (t := { q with
    frame := q.frame.write ⟨line, .subroutine name u.frame.finish isMethod⟩
      (q.frame.depth.follow moves) }) rfl rfl rfl
    ((has_subroutine line hstrange).not.2 fun hs => hempty (hinner.strange hs)))
  have hlooks {g : String} (hg : Session.Looks _ g) : u.Looks g := hdefine.looks hg
  refine ⟨U ∪ U', _, ⟨fun g hg => hinner.looks (hlooks hg), fun g n hg => hinner.since (hlooks hg),
    fun g hg => ?_, hdefine.strange, fun w c hw => ?_, fun w => ?_, hdefine.brackets⟩, fun k hk => ?_⟩
  · rw [hdefine.foreign hg, bot_sup_eq, Signs.mem_foreign, has_subroutine line hop,
      hinner.foreign (hlooks hg), or_iff_right hempty]
  · have hcode : u.frame.Has (·.opcode == c) ↔ w ∈ U := by
      rw [hinner.brought hw, or_iff_right hempty]
    have hown (g : Frame) : ((subroutine name g isMethod).opcode == c) = false := by
      cases w <;> cases hw <;> cases name <;> cases isMethod <;> rfl
    have hroutine := has_subroutine (p := fun op => op.opcode == c) (d := u.frame) line hown
    rw [hdefine.brought hw, Set.mem_union, Set.mem_union, ← hcode, ← hroutine, or_comm (b := w ∈ U')]
    simp [hw]
  · rw [hdefine.warned]
    simp [hinner.warned, or_assoc]
  · have hbrackets : u.frame.brackets = bs := by simpa [Draft.brackets, hchild] using hinner.brackets
    rw [← hbrackets] at hnested
    obtain ⟨hdepth, hbs⟩ := hnested k hk
    obtain ⟨hdepth', hbs'⟩ := hnested' k hdepth
    exact ⟨hdepth', fun hv => (hbs' hv).append (.routine (hbs hv) .nil)⟩

theorem learn {P : α → Prop} (hx : Evinces v D x) (hP : ∀ ⦃s a t⦄, x s = .ok (a, t) → P a)
    (hf : ∀ a, P a → Evinces v E (f a)) : Evinces v (D ⊔ E) (x >>= f) := by
  intro s b t h
  obtain ⟨a, r, h1, h2⟩ := bind_ok.1 h
  exact Set.union_empty ∅ ▸ (hx h1).trans (hf a (hP h1) h2)

theorem newChild {captures : Bool} {f : Draft → Emit β}
    (hf : ∀ child, child.code = #[] → Evinces v D (f child)) :
    Evinces v D (Emit.newChild v captures >>= f) := by
  rw [← bot_sup_eq D]
  refine learn (neutral (newChild_neutral _)) (fun s child t h => ?_) hf
  simp only [Emit.newChild, bind_ok, pure_ok, onDraft_ok] at h
  obtain ⟨_, _, -, ⟨_, _⟩, _, ⟨h, -⟩, rfl, -⟩ := h
  cases h
  rfl

end Evinces

namespace Owes

variable {W : Set Warning}

theorem own (hx : Evinces v ⊥ x) (hf : ∀ a, Owes v W D (f a)) : Owes v W D (x >>= f) := by
  intro s b t h
  obtain ⟨a, r, h1, h2⟩ := bind_ok.1 h
  have hboth := (hx h1).trans (hf a h2)
  rwa [Set.empty_union, bot_sup_eq] at hboth

theorem last (hx : Evinces v D x) (hf : ∀ a, Owes v W ⊥ (f a)) : Owes v W D (x >>= f) := by
  intro s b t h
  obtain ⟨a, r, h1, h2⟩ := bind_ok.1 h
  have hboth := (hx h1).trans (hf a h2)
  rwa [Set.empty_union, sup_bot_eq] at hboth

theorem first (hx : Owes v W ⊥ x) (hf : ∀ a, Evinces v D (f a)) : Owes v W D (x >>= f) := by
  intro s b t h
  obtain ⟨a, r, h1, h2⟩ := bind_ok.1 h
  have hboth := (hx h1).trans (hf a h2)
  rwa [Set.union_empty, bot_sup_eq] at hboth

theorem warn (w : Warning) : Owes v {w} ⊥ (Emit.warn w) := by
  intro s a t h
  have hsame : t.frame = s.frame ∧ t.includeFolder = s.includeFolder ∧ t.modules = s.modules ∧
      ∀ w', w' ∈ t.warnings ↔ w' ∈ s.warnings ∨ w' = w := by
    rw [modify_ok.1 h]
    split <;> rename_i hmem
    · have hmem : w ∈ s.warnings := by simpa using hmem
      exact ⟨rfl, rfl, rfl, fun w' => ⟨.inl, fun h => h.elim id (· ▸ hmem)⟩⟩
    · exact ⟨rfl, rfl, rfl, fun w' => by rw [mem_cons, or_comm]⟩
  obtain ⟨hframe, hfolder, hmodules, hwarned⟩ := hsame
  have hbare : Evidence v ⊥ ∅ ∅ [] s { t with warnings := s.warnings } :=
    .of_map (fun f hf => hfolder.trans hf) rfl fun _ => by rw [hframe]
  refine ⟨∅, [], { hbare with warned := fun w' => ?_ }, fun k hk => ⟨hmodules ▸ hk, fun _ => .nil⟩⟩
  rw [Set.union_empty]
  exact hwarned w'

end Owes

namespace Evinces

theorem added {f : Nat → Emit β} (hw : w.opcode? = some op.opcode) (hop : op.isAdmitted v = true)
    (hf : op.frames = []) (hb : op.bracket = .other) (h : ∀ k, Owes v {w} D (f k)) :
    Evinces v D (Emit.add v op line >>= f) := by
  intro s b t hr
  obtain ⟨k, r, h1, h2⟩ := bind_ok.1 hr
  obtain ⟨hemitted, hmodules⟩ := Evidence.emitted h1 hop hf
  obtain ⟨U, bs, hevidence, hnested⟩ := h k h2
  have hboth := hemitted.trans hevidence
  rw [Warning.about_of_opcode hw, bot_sup_eq, hb] at hboth
  rw [hmodules] at hnested
  exact ⟨{w} ∪ U, _, hboth, fun k hk => ⟨(hnested k hk).1, fun hv => .other ((hnested k hk).2 hv)⟩⟩

theorem warned {x : Emit β} (hw : w.opcode? = some op.opcode) (hop : op.isAdmitted v = true)
    (hf : op.frames = []) (hb : op.bracket = .other) (h : Owes v {w} D x) :
    Evinces v D (do
      Emit.emit v op line
      x) := by
  intro s b t hr
  obtain ⟨_, r, h1, h2⟩ := bind_ok.1 hr
  obtain ⟨k, h1⟩ := discard_ok.1 h1
  exact added hw hop hf hb (fun _ => h) (bind_ok.2 ⟨k, r, h1, h2⟩)

theorem unattached (hw : w.opcode? = none) (h : Owes v {w} D x) : Evinces v D x := by
  intro s a t hr
  obtain ⟨U, bs, hevidence, hnested⟩ := h hr
  refine ⟨{w} ∪ U, bs, { hevidence with brought := fun w' c hc => ?_, warned := ?_ }, hnested⟩
  · have hne : w' ∉ ({w} : Set Warning) := by
      rintro rfl
      rw [hw] at hc
      cases hc
    rw [hevidence.brought hc, Set.mem_union, or_iff_right hne]
  · rw [Set.empty_union]
    exact hevidence.warned

end Evinces

theorem ModuleTree.depth_leave {m : ModuleTree} (h : m.depth = k + 2) : m.leave.depth = k + 1 := by
  obtain ⟨modules, path⟩ := m
  match path, h with
  | _ :: _ :: _, h => exact Nat.succ.inj h

namespace Emit

variable {s t : Session}

/-- The action appends the operation that opens a class or module. -/
def OpensBody {α : Type} (v : Version) (x : Emit α) : Prop :=
  ∀ ⦃s a t⦄, x s = .ok (a, t) →
    Evidence v ⊥ ∅ ∅ [.opens] s t ∧ t.modules.depth = s.modules.depth

theorem OpensBody.after (hx : Neutral x) (hf : ∀ a, OpensBody v (f a)) : OpensBody v (x >>= f) := by
  intro s b t h
  obtain ⟨a, r, h1, h2⟩ := bind_ok.1 h
  have hidle := hx h1
  obtain ⟨hopens, hdepth⟩ := hf a h2
  have hboth := (Evidence.of_still hidle.still hidle.warnings).trans hopens
  rw [bot_sup_eq, Set.empty_union] at hboth
  exact ⟨hboth, hdepth.trans (congrArg List.length hidle.path)⟩

theorem OpensBody.emit (hop : op.span = (1, 13)) (hf : op.frames = [])
    (hw : Warning.about op.opcode = ∅) (hb : op.bracket = .opens) :
    OpensBody v (Emit.emit v op line) := by
  intro s a t h
  obtain ⟨k, h⟩ := discard_ok.1 h
  obtain ⟨hemitted, hmodules⟩ := Evidence.emitted h (isAdmitted_of_always hop) hf
  rw [hb, hw] at hemitted
  exact ⟨hemitted, by rw [hmodules]⟩

theorem openClass_opensBody (loc : Loc) (c : ClassCode) (name : String) (isStatic : Bool) :
    OpensBody v (openClass v loc c name isStatic) := by
  unfold openClass
  split
  · refine .after (.bind (.splitPath _) fun _ => .pure _) fun _ => .emit rfl rfl ?_ rfl
    exact Set.eq_empty_of_forall_notMem fun w => by cases w <;> nofun
  · refine .after (.symbol _) fun _ => .after (baseClass_neutral _) fun _ => .emit rfl rfl ?_ rfl
    exact Set.eq_empty_of_forall_notMem fun w => by cases w <;> nofun

theorem leaveModuleScope_evidence (h : leaveModuleScope v s = .ok ((), t)) :
    t.modules = s.modules ∧ ∃ bs, Evidence v ⊥ ∅ ∅ bs s t ∧
      ∀ k, v.has .leave = true → s.modules.depth = k + 2 → bs = [.closes (k + 1)] := by
  obtain ⟨c, -, ⟨rewind, hcode⟩, hat⟩ := leaveModuleScope_closes h
  refine ⟨by rw [hat]; rfl, ?_⟩
  split at hcode <;> rename_i hv
  · have hadmitted (m : Int) : (leave m rewind).isForeign v = false := by
      rw [isForeign, isAdmitted_of_has hv rfl]
      rfl
    have happended := Evidence.appended (v := v) hcode (by rw [hat]; rfl) (by rw [hat]; rfl) rfl
      (by rw [isStrange, hadmitted, Bool.false_and])
    have hnone : Warning.about .leave = ∅ := Set.eq_empty_of_forall_notMem fun w => by cases w <;> nofun
    rw [hadmitted, Signs.foreign_of_not (by simp), opcode, hnone] at happended
    refine ⟨_, happended, fun k _ hk => ?_⟩
    rw [hk, bracket, if_neg (by simp; omega)]
    simp
  · exact ⟨[], .of_map (fun f hf => by rw [hat]; exact hf) (by rw [hat]; rfl) fun _ => by rw [hcode],
      fun k hleave _ => absurd hleave hv⟩

theorem setExit_evidence (h : setState v .exit s = .ok ((), t)) :
    t.modules = s.modules ∧ ∃ bs, Evidence v ⊥ ∅ ∅ bs s t ∧ (v.has .leave = true → bs = [.exits]) := by
  obtain ⟨k, h⟩ := discard_ok.1 h
  obtain ⟨hadmitted, hunmarked⟩ := Evinces.stateOperation_admitted (v := v) .exit
  obtain ⟨hemitted, hmodules⟩ :=
    Evidence.emitted h hadmitted (frames_of_isUnmarked hunmarked)
  rw [about_of_isUnmarked hunmarked] at hemitted
  refine ⟨hmodules, _, hemitted, fun hv => ?_⟩
  have hnew : v.has .newSetState = true := by
    rw [Version.has_iff rfl] at hv ⊢
    exact Nat.le_trans (by decide) hv
  rw [stateOperation, if_pos hnew]
  rfl

end Emit

section

variable (lib : Library) (v : Version) (logs : Bool)

/-- The action shows the signs of the uses. -/
def Tells {α : Type} (us : List Use) (x : Emit α) : Prop := Evinces v (.all lib v logs us) x

end

namespace Evinces

variable {lib : Library} {logs : Bool} {u : Use} {us ws : List Use}

theorem leaf (hx : Evinces v ⊥ x) : Tells lib v logs [] x := by
  rwa [Tells, Signs.all_nil]

theorem node (hu : u.isQuiet = true) (hx : Tells lib v logs (u.uses v) x) :
    Tells lib v logs [u] x := by
  rwa [Tells, Signs.all_singleton, Signs.of_quiet hu]

theorem gated (hu : u.gate? = some n)
    (hx : Evinces v ((fun _ => {.since n}) ⊔ .all lib v logs (u.uses v)) x) :
    Tells lib v logs [u] x := by
  rwa [Tells, Signs.all_singleton, Signs.of_gate hu]

end Evinces

end Adhoc
