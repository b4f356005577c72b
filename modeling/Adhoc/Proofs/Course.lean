import Adhoc.Proofs.Names
import Adhoc.Proofs.SlotTable
import Mathlib.Logic.Relation

namespace Adhoc

open Emit

variable {op : Operation} {line : UInt32} {v : Version}

/-- What a stretch of a course leaves behind. -/
inductive Deed
  /-- A variable of the frame itself has the name. -/
  | owns (name : String)
  /-- A member is defined in the scope at hand. -/
  | defines (name : String)
  /-- A class or module that defined the member is closed. -/
  | clears (name : String)
  /-- A class or module is opened and closed. -/
  | encloses

namespace Deed

def isDefinition : Deed → Bool
  | .defines _ => true
  | _ => false

def isOwn : Deed → Bool
  | .owns _ => true
  | _ => false

/-- What a deed inside a class or module is for the scope around it. -/
def closed : Deed → Deed
  | .defines name => .clears name
  | d => d

end Deed

/-- The scope without the jumps that are noted in it. -/
def Scope.bare (c : Scope) : Scope := { c with breaks := [], continues := [] }

/-- The open scopes without the jumps that are noted in them. -/
def Draft.bare (d : Draft) : List Scope := d.scopes.map Scope.bare

/-- Whether the operation neither names a variable nor closes a scope nor holds a frame. -/
def Operation.isPlain : Operation → Bool
  | .variable .. | .leave .. | .subroutine .. => false
  | _ => true

namespace Draft

section

variable (known : Symbol → Prop) (d e : Draft)

/-- How one step changes slots, scopes and captured variables. -/
inductive Change : List Deed → Prop
  | none : e.slots = d.slots → e.bare = d.bare → e.captured = d.captured → Change []
  | addLocal {x : Symbol} {c : Scope} {rest : List Scope} : known x →
    d.slots.localIndex? x = .none → e.slots = (d.slots.addLocal (some x)).2 →
    d.bare = c :: rest → e.bare = c.addLocal x :: rest → e.captured = d.captured →
    Change [.owns x.name]
  | addStatic {x : Symbol} {c : Scope} {rest : List Scope} : known x →
    d.slots.staticIndex? x = .none → e.slots = (d.slots.addStatic (some x)).2 →
    d.bare = c :: rest → e.bare = c.addStatic x :: rest → e.captured = d.captured →
    Change []
  /-- A member gets a slot of its own, also if the name has one. -/
  | addMember {x : Symbol} {c : Scope} {rest : List Scope} : known x →
    e.slots = (d.slots.addStatic (some x)).2 →
    d.bare = c :: rest → e.bare = c.addStatic x :: rest → e.captured = d.captured →
    Change [.defines x.name]
  | addStatics {xs : List (Option Symbol)} :
    e.slots = xs.foldl (fun slots x => (slots.addStatic x).2) d.slots →
    e.bare = d.bare → e.captured = d.captured → Change []
  | capture {x : Symbol} : known x → d.captures x = true → x ∉ d.captured →
    e.slots = (d.slots.addLocal (some x)).2 → e.bare = d.bare →
    e.captured = d.captured ++ [x] → Change []

/-- What one step writes. A variable is written as the draft has it after the step. -/
inductive Writes : List Deed → Prop
  | none : e.code = d.code → Writes []
  | patch {k target : Nat} {u : Draft} : patch k target d = .ok ((), u) → e.code = u.code → Writes []
  | plain {op : Operation} {line : UInt32} : op.isPlain = true → e.code = d.code.push ⟨line, op⟩ →
    Writes []
  | captured {x : Symbol} {k : Nat} {reach : Reach} {names : List Symbol} {line : UInt32} :
    d.captures x = true → e.captured[k]? = some x → names.getLast? = some x →
    e.code = d.code.push ⟨line, .variable reach names (Int.negSucc k)⟩ → Writes []
  | local {x : Symbol} {i : Nat} {reach : Reach} {line : UInt32} :
    d.captures x = false → e.slots.localIndex? x = some i →
    e.code = d.code.push ⟨line, .variable reach [x] i⟩ → Writes []
  | static {x : Symbol} {i : Nat} {reach : Reach} {names : List Symbol} {line : UInt32} :
    d.captures x = false → e.slots.staticIndex? x = some i → names.getLast? = some x →
    e.code = d.code.push ⟨line, .variable reach names i⟩ → Writes []
  /-- A declared variable, or a temporary. -/
  | own {x : Symbol} {i : Nat} {reach : Reach} {line : UInt32} :
    e.slots.localIndex? x = some i → e.code = d.code.push ⟨line, .variable reach [x] i⟩ →
    Writes [.owns x.name]
  | self {x : Symbol} {line : UInt32} : x.name = "self" →
    e.code = d.code.push ⟨line, .variable .eval [x] 0⟩ → Writes [.owns x.name]

/-- A variable that is written under one name is a local. Only `self` may be something else: the
reserved slot, or a static. -/
def NamesLocals : Prop :=
  ∀ line reach x (i : Nat), e.code = d.code.push ⟨line, .variable reach [x] i⟩ →
    e.slots.localIndex? x = some i ∨
      x.name = "self" ∧ (reach = .eval ∧ i = 0 ∨ e.slots.hasLocal x = false)

/-- At most one instruction is written, and the slots are noted with it. -/
def Records : Prop :=
  e.code.size = d.code.size ∧ e.moments = d.moments ∨
    e.code.size = d.code.size + 1 ∧ e.moments = d.moments.push e.slots

/-- What stays as it was when the frame was begun. -/
structure Remains : Prop where
  parameters : e.parameters = d.parameters
  enclosing : e.enclosing = d.enclosing
  hasRest : e.hasRest = d.hasRest
  isRoot : e.isRoot = d.isRoot

/-- The draft after its innermost scope is closed, with the slots that are left. -/
structure Closes (c : Scope) (slots : Slots) : Prop where
  remains : d.Remains e
  scopes : d.scopes = c :: e.scopes
  slots : e.slots = slots
  captured : e.captured = d.captured

end

/-- The slots that a closed scope leaves: the newer layouts free its variables. -/
def left (v : Version) (free : Slots → Symbol → Slots) (symbols : List Symbol) (slots : Slots) :
    Slots := if v.has .freesOnLeave then symbols.foldl free slots else slots

/-- One step in the making of a frame. Classes and modules are closed if `modules` is true. -/
inductive BuildStep (v : Version) (modules : Prop) (d : Draft) : Draft → Prop
  | step {e : Draft} {ds es : List Deed} : d.Remains e → d.Change (fun _ => True) e ds →
    d.Writes e es → d.Records e → BuildStep v modules d e
  | parameter {x : Symbol} {e : Draft} : addParameter x d = .ok ((), e) → BuildStep v modules d e
  | rest : BuildStep v modules d { d with hasRest := true }
  | reserve : BuildStep v modules d { d with slots := (d.slots.addLocal none).2 }
  | openScope (kind : ScopeKind) : BuildStep v modules d { d with scopes := { kind := kind } :: d.scopes }
  | closeScope {c : Scope} {e : Draft} : d.Closes e c (left v Slots.freeLocal c.locals d.slots) →
    e.code = d.code → e.moments = d.moments → BuildStep v modules d e
  | closeModule {c : Scope} {e : Draft} : modules →
    d.Closes e c (left v Slots.freeStatic c.statics d.slots) → e.code = d.code →
    e.moments = d.moments → BuildStep v modules d e
  | leave (depth : Depth) :
      BuildStep v modules d (d.write ⟨0, .leave 0 d.slots.rewindIndex⟩ depth)
  | leaveModule (depth : Depth) (count rewind : Int) : modules →
      BuildStep v modules d (d.write ⟨0, .leave count rewind⟩ depth)
  | subroutine (depth : Depth) (name : Option Symbol) (frame : Frame) (isMethod : Bool)
    (line : UInt32) :
      BuildStep v modules d (d.write ⟨line, .subroutine name frame isMethod⟩ depth)

/-- The code ends with at most a `LEAVE` behind the old one. -/
def Leaves (d e : Draft) : Prop :=
  e.code = d.code ∨ ∃ m n, e.code = d.code.push ⟨0, .leave m n⟩

/-- One draft is made from another by such steps. -/
abbrev Leads (v : Version) (modules : Prop) : Draft → Draft → Prop :=
  Relation.ReflTransGen (BuildStep v modules)

/-- Nothing of the frame is made yet. -/
def Fresh (v : Version) (enclosing : Option (List Symbol)) (isRoot : Bool) (d : Draft) : Prop :=
  ∃ source, d = { start v source with enclosing := enclosing, isRoot := isRoot }

/-- The draft of a subroutine before its body. Its only locals are its parameters, which have the
first slots in their order if they are distinct. -/
structure Prepared (v : Version) (symbols : SymbolTable) (enclosing : Option (List Symbol))
    (d : Draft) : Prop where
  begun : ∃ d0, Fresh v enclosing false d0 ∧ Leads v True d0 d
  code : d.code = #[]
  moments : d.moments = #[]
  captured : d.captured = []
  enclosing : d.enclosing = enclosing
  isRoot : d.isRoot = false
  locals : ∀ i x, d.slots.local? i = some x → x ∈ d.parameters
  known : ∀ x ∈ d.parameters, symbols.Knows x
  placed : d.parameters.Nodup → d.slots.Lists v d.parameters

end Draft

/-- One step of a course. -/
structure Step (ds : List Deed) (s t : Session) : Prop where
  widens : s.Widens t
  remains : s.frame.Remains t.frame
  act : ∃ es fs, ds = es ++ fs ∧ s.frame.Change t.symbols.Knows t.frame es ∧ s.frame.Writes t.frame fs
  named : s.frame.NamesLocals t.frame
  records : s.frame.Records t.frame

/-- From version 11 on, the frame takes the slots of its locals for their names. -/
def Frame.TakesByName (v : Version) (f : Frame) : Prop :=
  v.has .reservedLocalInFrame = false → (Slots.empty v).ByName f.header.slots

namespace Session

def «open» (s : Session) (kind : ScopeKind) : Session :=
  { s with frame := { s.frame with scopes := { kind := kind } :: s.frame.scopes } }

/-- The session goes on with another frame. -/
def «at» (s : Session) (frame : Draft) : Session := { s with frame := frame }

end Session

/-- The course from one session to another in the same frame, with its deeds. -/
inductive Course (v : Version) : List Deed → Session → Session → Prop
  | nil (s : Session) : Course v [] s s
  | step {ds es : List Deed} {s r t : Session} : Course v ds s r → Step es r t →
    Course v (ds ++ es) s t
  | scope {ds es : List Deed} {s r u t : Session} {kind : ScopeKind} {leaves : Bool} :
    Course v ds s r → Course v es (r.open kind) u → leaveScope v leaves u = .ok ((), t) →
    Course v (ds ++ es.filter (!·.isDefinition)) s t
  | module {ds es : List Deed} {s r u t : Session} :
    Course v ds s r → Course v es (r.open .module) u → leaveModuleScope v u = .ok ((), t) →
    Course v (ds ++ .encloses :: es.map Deed.closed) s t
  /-- The defaults of the parameters come first. What the closure captured is read after its body. -/
  | closure {ds es fs : List Deed} {s r u w x y t : Session} {child : Draft} {loc : Loc}
    {isMethod : Bool} : Course v ds s r → Course v es r u →
    child.Prepared v u.symbols (some r.frame.slots.locals) → Course v fs (u.at child) w →
    leaveScope v false w = .ok ((), x) →
    (x.frame.captured.forM fun c => readName v c.name loc) (x.at u.frame) = .ok ((), y) →
    Course v [] (x.at u.frame) y →
    emit v (.subroutine none x.frame.finish isMethod) loc.line y = .ok ((), t) →
    Course v (ds ++ es) s t
  | definition {ds es fs : List Deed} {s r w x y t : Session} {child : Draft} {name : Symbol}
    {isMethod : Bool} {line : UInt32} : Course v ds s r →
    child.Prepared v r.symbols none → Course v es (r.at child) w →
    leaveScope v false w = .ok ((), x) → frameExit v x = .ok ((), y) → Course v fs x y →
    emit v (.subroutine (some name) y.frame.finish isMethod) line (y.at r.frame) = .ok ((), t) →
    Course v ds s t

namespace Draft

variable {d e f : Draft}

theorem Remains.refl (d : Draft) : d.Remains d := ⟨rfl, rfl, rfl, rfl⟩

theorem Remains.trans (h : d.Remains e) (h' : e.Remains f) : d.Remains f :=
  ⟨h'.parameters.trans h.parameters, h'.enclosing.trans h.enclosing, h'.hasRest.trans h.hasRest,
    h'.isRoot.trans h.isRoot⟩

theorem Records.rest (hcode : e.code = d.code) (hmoments : e.moments = d.moments) : d.Records e :=
  .inl ⟨by rw [hcode], hmoments⟩

theorem Records.write (d : Draft) (ins : Instruction) (depth : Depth) :
    d.Records (d.write ins depth) :=
  .inr ⟨by simp, rfl⟩

theorem NamesLocals.of_size (h : e.code.size ≤ d.code.size) : d.NamesLocals e := by
  intro line reach x i hcode
  rw [hcode, Array.size_push] at h
  omega

theorem NamesLocals.of_push (h : e.code = d.code.push ⟨line, op⟩)
    (hop : ∀ reach x (i : Nat), op = .variable reach [x] i → e.slots.localIndex? x = some i ∨
      x.name = "self" ∧ (reach = .eval ∧ i = 0 ∨ e.slots.hasLocal x = false)) :
    d.NamesLocals e := by
  intro line' reach x i hcode
  obtain ⟨hins, -⟩ := Array.push_eq_push.1 (h.symm.trans hcode)
  exact hop reach x i (Instruction.mk.inj hins).2

theorem NamesLocals.of_plain (h : e.code = d.code.push ⟨line, op⟩) (hop : op.isPlain = true) :
    d.NamesLocals e := by
  refine .of_push h fun reach x i heq => ?_
  rw [heq] at hop
  cases hop

end Draft

namespace Emit

variable {s t : Session} {leaves : Bool}

theorem popScope_closes {c : Scope} (h : onFrame Draft.popScope s = .ok (c, t)) :
    s.frame.Closes t.frame c s.frame.slots ∧ t.frame.code = s.frame.code ∧
      t.frame.moments = s.frame.moments ∧ t = s.at t.frame := by
  obtain ⟨d, hd, rfl⟩ := onFrame_ok.1 h
  unfold Draft.popScope at hd
  split at hd <;> cases hd
  exact ⟨⟨⟨rfl, rfl, rfl, rfl⟩, ‹_›, rfl, rfl⟩, rfl, rfl, rfl⟩

theorem emit_ok (h : emit v op line s = .ok ((), t)) :
    ∃ depth, t = s.at (s.frame.write ⟨line, op⟩ depth) := by
  obtain ⟨_, h⟩ := discard_ok.1 h
  obtain ⟨moves, -, -, rfl⟩ := add_ok.1 h
  exact ⟨_, rfl⟩

theorem popScope_left {free : Slots → Symbol → Slots} {noted : Scope → List Symbol}
    {rest : Emit Unit} (h : (do
      let scope ← onFrame Draft.popScope
      if v.has .freesOnLeave then freeAll free (noted scope)
      rest) s = .ok ((), t)) :
    ∃ c d, s.frame.Closes d c (Draft.left v free (noted c) s.frame.slots) ∧
      d.code = s.frame.code ∧ d.moments = s.frame.moments ∧ rest (s.at d) = .ok ((), t) := by
  obtain ⟨c, r, h1, h⟩ := bind_ok.1 h
  obtain ⟨hpop, hcode, hmoments, hr⟩ := popScope_closes h1
  refine ⟨c, { r.frame with slots := Draft.left v free (noted c) s.frame.slots },
    ⟨hpop.remains.trans ⟨rfl, rfl, rfl, rfl⟩, hpop.scopes, rfl, hpop.captured⟩, hcode, hmoments, ?_⟩
  rw [Draft.left, ← hpop.slots]
  rw [hr] at h
  split at h <;> rename_i hfrees
  · obtain ⟨_, u, h2, h⟩ := bind_ok.1 h
    obtain rfl := modify_ok.1 h2
    rw [if_pos hfrees]
    exact h
  · rw [if_neg hfrees]
    exact h

/-- A closed scope frees its locals. -/
theorem leaveScope_closes (h : leaveScope v leaves s = .ok ((), t)) :
    ∃ c, s.frame.Closes t.frame c (Draft.left v Slots.freeLocal c.locals s.frame.slots) ∧
      t.frame.code = (if leaves && v.has .leave then
        s.frame.code.push ⟨0, .leave 0 t.frame.slots.rewindIndex⟩ else s.frame.code) ∧
      t = s.at t.frame := by
  obtain ⟨c, d, hcloses, hcode, -, h⟩ := popScope_left h
  refine ⟨c, ?_⟩
  split at h <;> rename_i hleave
  · obtain ⟨f, u, hf, h⟩ := bind_ok.1 h
    obtain ⟨rfl, rfl⟩ := frame_ok.1 hf
    obtain ⟨depth, rfl⟩ := emit_ok h
    refine ⟨⟨hcloses.remains.trans ⟨rfl, rfl, rfl, rfl⟩, hcloses.scopes, hcloses.slots,
      hcloses.captured⟩, ?_, rfl⟩
    rw [if_pos hleave, ← hcode]
    rfl
  · obtain ⟨-, rfl⟩ := pure_ok.1 h
    exact ⟨hcloses, by rw [if_neg hleave, ← hcode]; rfl, rfl⟩

theorem leaveModuleScope_closes (h : leaveModuleScope v s = .ok ((), t)) :
    ∃ c, s.frame.Closes t.frame c (Draft.left v Slots.freeStatic c.statics s.frame.slots) ∧
      (∃ r, t.frame.code = if v.has .leave then
        s.frame.code.push ⟨0, .leave (s.modules.depth - 1 : Nat) r⟩ else s.frame.code) ∧
      t = s.at t.frame := by
  obtain ⟨c, d, hcloses, hcode, -, h⟩ := popScope_left h
  refine ⟨c, ?_⟩
  split at h <;> rename_i hleave
  · obtain ⟨f, u, hf, h⟩ := bind_ok.1 h
    obtain ⟨rfl, rfl⟩ := get_ok.1 hf
    obtain ⟨depth, rfl⟩ := emit_ok h
    refine ⟨⟨hcloses.remains.trans ⟨rfl, rfl, rfl, rfl⟩, hcloses.scopes, hcloses.slots,
      hcloses.captured⟩, ?_, rfl⟩
    exact ⟨_, by rw [if_pos hleave, ← hcode]; rfl⟩
  · obtain ⟨-, rfl⟩ := pure_ok.1 h
    exact ⟨hcloses, ⟨0, by rw [if_neg hleave, ← hcode]; rfl⟩, rfl⟩

theorem leaveScope_moments (h : leaveScope v leaves s = .ok ((), t)) :
    t.frame.moments = if leaves && v.has .leave then s.frame.moments.push t.frame.slots
      else s.frame.moments := by
  obtain ⟨c, d, -, -, hmoments, h⟩ := popScope_left h
  split at h <;> rename_i hleave
  · obtain ⟨f, u, hf, h⟩ := bind_ok.1 h
    obtain ⟨rfl, rfl⟩ := frame_ok.1 hf
    obtain ⟨depth, rfl⟩ := emit_ok h
    rw [if_pos hleave, ← hmoments]
    rfl
  · obtain ⟨-, rfl⟩ := pure_ok.1 h
    rw [if_neg hleave, ← hmoments]
    rfl

theorem leaveModuleScope_moments (h : leaveModuleScope v s = .ok ((), t)) :
    t.frame.moments = if v.has .leave then s.frame.moments.push t.frame.slots
      else s.frame.moments := by
  obtain ⟨c, d, -, -, hmoments, h⟩ := popScope_left h
  split at h <;> rename_i hleave
  · obtain ⟨f, u, hf, h⟩ := bind_ok.1 h
    obtain ⟨rfl, rfl⟩ := get_ok.1 hf
    obtain ⟨depth, rfl⟩ := emit_ok h
    rw [if_pos hleave, ← hmoments]
    rfl
  · obtain ⟨-, rfl⟩ := pure_ok.1 h
    rw [if_neg hleave, ← hmoments]
    rfl

theorem leaveScope_leaves (h : leaveScope v leaves s = .ok ((), t)) : s.frame.Leaves t.frame := by
  obtain ⟨c, -, hcode, -⟩ := leaveScope_closes h
  split at hcode
  · exact .inr ⟨_, _, hcode⟩
  · exact .inl hcode

theorem leaveModuleScope_leaves (h : leaveModuleScope v s = .ok ((), t)) :
    s.frame.Leaves t.frame := by
  obtain ⟨c, -, ⟨n, hcode⟩, -⟩ := leaveModuleScope_closes h
  split at hcode
  · exact .inr ⟨_, _, hcode⟩
  · exact .inl hcode

end Emit

namespace Course

variable {ds es : List Deed} {s r t : Session}

theorem trans (h : Course v ds s r) (h' : Course v es r t) : Course v (ds ++ es) s t := by
  induction h' with
  | nil => simpa using h
  | step _ hstep ih => simpa [List.append_assoc] using (ih h).step hstep
  | scope _ hin hleave ih => simpa [List.append_assoc] using (ih h).scope hin hleave
  | module _ hin hleave ih => simpa [List.append_assoc] using (ih h).module hin hleave
  | closure _ hdefaults hchild hbody hleave hreads hcourse hemit ih =>
    simpa [List.append_assoc] using
      (ih h).closure hdefaults hchild hbody hleave hreads hcourse hemit
  | definition _ hchild hbody hleave hexit hcourse hemit ih =>
    exact (ih h).definition hchild hbody hleave hexit hcourse hemit

theorem of_step (h : Step ds s t) : Course v ds s t := (nil s).step h

theorem widens (h : Course v ds s t) : s.Widens t := by
  induction h with
  | nil => exact .refl _
  | step _ hstep ih => exact ih.trans hstep.widens
  | @scope _ _ _ r u _ kind _ _ _ hleave ih ihin =>
    obtain ⟨c, -, -, hat⟩ := leaveScope_closes hleave
    rw [hat]
    exact ih.trans ⟨ihin.symbols, ihin.folder⟩
  | @module _ _ _ r u _ _ _ hleave ih ihin =>
    obtain ⟨c, -, -, hat⟩ := leaveModuleScope_closes hleave
    rw [hat]
    exact ih.trans ⟨ihin.symbols, ihin.folder⟩
  | closure _ _ _ _ hleave _ _ hemit ih ihdefaults ihbody ihreads =>
    obtain ⟨c, -, -, hat⟩ := leaveScope_closes hleave
    obtain ⟨depth, rfl⟩ := emit_ok hemit
    rw [hat] at ihreads
    refine ih.trans (ihdefaults.trans (.trans ⟨ihbody.symbols, ihbody.folder⟩ ?_))
    exact ⟨ihreads.symbols, ihreads.folder⟩
  | definition _ _ _ hleave _ _ hemit ih ihbody ihexit =>
    obtain ⟨c, -, -, hat⟩ := leaveScope_closes hleave
    obtain ⟨depth, rfl⟩ := emit_ok hemit
    rw [hat] at ihexit
    exact ih.trans (.trans ⟨ihbody.symbols, ihbody.folder⟩ ⟨ihexit.symbols, ihexit.folder⟩)

theorem fold {P : List Deed → Draft → Draft → Prop} (h : Course v ds s t) (hnil : ∀ d, P [] d d)
    (htrans : ∀ {ds es d e f}, P ds d e → P es e f → P (ds ++ es) d f)
    (hstep : ∀ {ds s t}, Step ds s t → P ds s.frame t.frame)
    (hscope : ∀ {es} {r u t : Session} {kind leaves}, Course v es (r.open kind) u →
      leaveScope v leaves u = .ok ((), t) → P es (r.open kind).frame u.frame →
      P (es.filter (!·.isDefinition)) r.frame t.frame)
    (hmodule : ∀ {es} {r u t : Session}, Course v es (r.open .module) u →
      leaveModuleScope v u = .ok ((), t) → P es (r.open .module).frame u.frame →
      P (.encloses :: es.map Deed.closed) r.frame t.frame)
    (hroutine : ∀ (d : Draft) depth name frame isMethod line,
      P [] d (d.write ⟨line, .subroutine name frame isMethod⟩ depth)) :
    P ds s.frame t.frame := by
  induction h with
  | nil => exact hnil _
  | step _ h ih => exact htrans ih (hstep h)
  | scope _ hin hleave ih ihin => exact htrans ih (hscope hin hleave ihin)
  | module _ hin hleave ih ihin => exact htrans ih (hmodule hin hleave ihin)
  | closure _ _ _ _ _ _ _ hemit ih ihdefaults _ ihreads =>
    obtain ⟨depth, rfl⟩ := emit_ok hemit
    simpa [Session.at] using htrans (htrans (htrans ih ihdefaults) ihreads) (hroutine _ depth _ _ _ _)
  | definition _ _ _ _ _ _ hemit ih =>
    obtain ⟨depth, rfl⟩ := emit_ok hemit
    simpa [Session.at] using htrans ih (hroutine _ depth _ _ _ _)

theorem foldClosed {P : List Deed → Draft → Draft → Prop} (h : Course v ds s t)
    (hnil : ∀ d, P [] d d) (htrans : ∀ {ds es d e f}, P ds d e → P es e f → P (ds ++ es) d f)
    (hstep : ∀ {ds s t}, Step ds s t → P ds s.frame t.frame)
    (hclosed : ∀ {es fs} {r u : Session} {e kind c slots}, Course v es (r.open kind) u →
      P es (r.open kind).frame u.frame → u.frame.Closes e c slots → P fs r.frame e)
    (hroutine : ∀ (d : Draft) depth name frame isMethod line,
      P [] d (d.write ⟨line, .subroutine name frame isMethod⟩ depth)) :
    P ds s.frame t.frame := by
  refine h.fold hnil htrans hstep (fun hin hleave ih => ?_) (fun hin hleave ih => ?_) hroutine
  · obtain ⟨c, hcloses, -, -⟩ := leaveScope_closes hleave
    exact hclosed hin ih hcloses
  · obtain ⟨c, hcloses, -, -⟩ := leaveModuleScope_closes hleave
    exact hclosed hin ih hcloses

theorem remains (h : Course v ds s t) : s.frame.Remains t.frame :=
  h.foldClosed (P := fun _ d e => d.Remains e) .refl .trans (·.remains)
    (fun _ ih hcloses => .trans ⟨ih.parameters, ih.enclosing, ih.hasRest, ih.isRoot⟩ hcloses.remains)
    fun _ _ _ _ _ _ => ⟨rfl, rfl, rfl, rfl⟩

end Course

end Adhoc
