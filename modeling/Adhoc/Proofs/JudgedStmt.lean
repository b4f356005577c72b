import Adhoc.Proofs.Deeds
import Adhoc.Proofs.JudgedTree

namespace Adhoc

open Emit List Option

variable {v : Version} {loc : Loc} {value x : Emit Unit} {u : Use} {stem : String} {us : List Use}
  {s : Stmt} {logs : Bool}

/-- Actions that neither name a variable nor change a scope nor say anything of the version. -/
inductive Emit.Inert (v : Version) : {α : Type} → Emit α → Prop
  | frame : Inert v frame
  | here : Inert v here
  | jump {kind : Jump} {line : UInt32} : kind.opcode.span = (1, 13) → Inert v (jump v kind line)
  | logicalJump (op : LogicalOp) (line : UInt32) : Inert v (jump v (logicalJump v op) line)
  | jumpBack (target : Nat) (line : UInt32) : Inert v (add v (.jump .always (some target)) line)
  | jumpTo (target : Nat) (line : UInt32) : Inert v (jumpTo v target line)
  | patch (k target : Nat) : Inert v (patch k target)
  | takeBreaks : Inert v takeBreaks
  | takeContinues : Inert v takeContinues
  | noteBreak (label : Option String) (k : Nat) : Inert v (onFrame (Draft.noteBreak label k))
  | noteContinue (label : Option String) (k : Nat) : Inert v (onFrame (Draft.noteContinue label k))
  | dropDepth : Inert v (onFrame (Draft.dropDepth 1))
  | setState (state : RunState) : Inert v (setState v state)
  | untracked (state : RunState) : Inert v (emitUntracked (stateOperation v state) 0)
  | markReturn : Inert v markReturn
  | symbol (name : String) : Inert v (symbol name)
  | plainSymbol (name : String) : Inert v (plainSymbol name)
  | operatorSymbol (internal : Bool) (text : String) : Inert v (operatorSymbol internal text)
  | temporary (stem : String) : Inert v (temporary stem)
  | pathSymbols (name : String) : Inert v (pathSymbols name)
  | named {op : Named} {x : Symbol} {line : UInt32} : op.opcode.span = (1, 13) →
    Inert v (emit v (.named op x) line)
  | pathed {op : Pathed} {path : List Symbol} {line : UInt32} : op ≠ .moduleDefine →
    Inert v (emit v (.pathed op path) line)
  | readName (name : String) (loc : Loc) : Inert v (readName v name loc)
  | importName (loc : Loc) (specifiers : List Expr) (target : String) (asName : Option String) :
    Inert v (importName v loc specifiers target asName)
  | setSource (source : Option Symbol) : Inert v (setSource source)
  | warnAwait : Inert v (warn .await)

/-- Whether the statement stands for what is in it. -/
def Stmt.isTransparent : Stmt → Bool
  | .continueLoop .. | .breakOut .. | .labeled .. | .sourceFile .. => true
  | .function _ r => r.id.isNone
  | _ => false

/-- A judgment that has rules for statements. -/
structure StmtJudgment (v : Version) (logs : Bool) extends Judgment v where
  add_comm (a b : Index) : add a b = add b a
  /-- It is a property of each run. -/
  runs {α : Type} {a : Index} {x : Emit α} : (∀ ⦃s r t⦄, x s = .ok (r, t) →
    ∃ y : Emit α, Holds a y ∧ y s = .ok (r, t)) → Holds a x
  inert {α : Type} {x : Emit α} : Inert v x → Holds zero x
  coalesce {a : Index} {x : Emit Unit} {line : UInt32} : v.has .nullCoalescing = true → Holds a x →
    Holds a (do
      let k ← jump v .ifNil line
      x
      patchHere k
      warn .coalesce)
  -- Scopes.
  /-- What counts outside of a scope. -/
  closed : Index → Index
  closed_zero : closed zero = zero
  closed_add (a b : Index) : closed (add a b) = add (closed a) (closed b)
  closed_closed (a : Index) : closed (closed a) = closed a
  closed_stmt {s : Stmt} : s.isClosed = true → closed (all [.stmt s]) = all [.stmt s]
  enclosed {a : Index} {x : Emit Unit} (kind : ScopeKind) (leaves : Bool) : Holds a x →
    Holds (closed a) (do
      pushScope kind
      x
      leaveScope v leaves)
  -- Temporaries, by their stems.
  temps : String → Index
  temps_add (stem : String) : add (temps stem) (temps stem) = temps stem
  idle {α : Type} {a : Index} {x : Emit α} (stem : String) : Holds a x → Holds (add (temps stem) a) x
  pushTemporary {stem : String} {x : Symbol} (loc : Loc) : Symbol.IsTemporary stem x.name →
    Holds (temps stem) (Emit.pushName v x.name loc true)
  readTemporary {stem : String} {x : Symbol} (line : UInt32) : Symbol.IsTemporary stem x.name →
    Holds (temps stem) (Emit.readTemporary v x line)
  -- Operations of fixed versions, and calls that the tree does not show.
  called : Index
  emitCall (n : Nat) (line : UInt32) : Holds called (Emit.emit v (.counted .call n) line)
  handler : Index
  catches {op : Simple} {line : UInt32} : op = .assign ∨ op = .pop →
    Holds handler (Emit.emit v (.simple op) line)
  suspension : Index
  suspends {op : Simple} {line : UInt32} : op = .assignPop ∨ op = .voidConst →
    Holds suspension (Emit.emit v (.simple op) line)
  -- Subroutines.
  /-- What the body of a subroutine counts for in the frame around it. -/
  framed : Node → Index
  /-- The same of an action that lowers the body. -/
  Frames : Node → Emit Unit → Prop
  /-- The definition of a member. -/
  defines : List String → Index
  readyNil : Readies zero Pure.pure
  readyCons {a b : Index} {f g : Draft → Emit Draft} : Readies a f → Readies b g →
    Readies (add a b) fun child => f child >>= g
  closure {a : Index} {cs : List ExprCode} {n : Node} {c : NodeCode} (loc : Loc) (isMethod : Bool) :
    Readies a (parameters cs) → Holds (all [n.use]) (closureBody v c) →
    Holds (add (framed n) a) (closure v loc cs c isMethod)
  subroutine {a : Index} {r : RoutineCode} {n : Node} (loc : Loc) (isMethod : Bool) :
    Readies a (parameters r.params) →
    (∀ ⦃s body t⦄, NodeCode.blockBody r.body s = .ok (body, t) → t = s ∧ Frames n body) →
    Holds (add (defines (r.id.bind Expr.ident?).toList) (add (framed n) a))
      (subroutine v loc r isMethod)
  routine_all {u : Use} {n : Node} : u.part.body? = some n → u.isSuspension = false →
    all [u] = add (defines u.part.members) (add (framed n) (all (u.uses v)))
  defines_nil : defines [] = zero
  -- Nodes.
  selfValue (role : Role) (loc : Loc) : Holds (all [.expr role (.selfRef loc)]) (selfValue v loc)
  yield_all (role : Role) (loc : Loc) : all [.expr role (.yield loc)] = suspension
  awaits {α : Type} {x : Emit α} (role : Role) (loc : Loc) (e : Expr) :
    Holds (add ((Part.expr (.await loc e)).body?.elim (all [.expr .value e]) framed)
      (add called (add (temps "task") (add suspension called)))) x →
    Holds (all [.expr role (.await loc e)]) x
  delegate (loc : Loc) (id : Expr) : Holds (all [.stmt (.delegate loc id)]) (delegate v loc id)
  classDef {d : ClassDef} {c : ClassCode} (loc : Loc) (isStatic : Bool) :
    Holds (all (d.body.map .stmt)) (runAll c.body) →
    Holds (all [.stmt (.classDef loc d)]) (classDef v loc c isStatic)
  class_all (role : Role) (loc : Loc) (d : ClassDef) :
    all [.expr role (.classDef loc d)] = all [.stmt (.classDef loc d)]
  static_all (role : Role) (outer loc : Loc) (d : ClassDef) :
    all [.expr role (.staticDecl outer (.classDef loc d))] = all [.stmt (.classDef loc d)]
  transparent_all {s : Stmt} : s.isTransparent = true → all [.stmt s] = all s.uses
  scope_all {s : Stmt} : (Part.stmt s).isScope = true → (Use.stmt s).isBlock = false →
    all [.stmt s] = add (since (Use.stmt s).checked?)
      (closed (add ((Part.stmt s).stem?.elim zero temps) (all s.uses)))
  declared {α : Type} {x : Emit α} {ds : List Declarator} (loc : Loc) :
    Holds (add (bound true (ds.flatMap fun d => d.id.toList.flatMap Expr.bound))
      (all (ds.flatMap (Declarator.steps v)))) x →
    Holds (all [.stmt (.declare loc ds)]) x
  finalizer_all (loc : Loc) (e : Expr) :
    all [.stmt (.finalizer loc e)] = add (temps "fin") (all [.expr .value e])
  tried {α : Type} {x : Emit α} {tried : Stmt} {last : Option Stmt} (loc : Loc) :
    Holds (all (.stmt tried :: last.toList.map .stmt)) x →
    Holds (all [.stmt (.tryCatch loc tried none last)]) x
  /-- What a handler with the parameter does apart from its body. -/
  caught : Option Expr → Index
  caughtUnnamed {α : Type} {x : Emit α} : Holds handler x → Holds (caught none) x
  caughtNamed {α : Type} {x : Emit α} {e : Expr} {name : String} : e.ident? = some name →
    Holds (add (bound true [name]) (add handler (temps "catch"))) x → Holds (caught (some e)) x
  triedCaught {α : Type} {x : Emit α} {tried : Stmt} {h : CatchClause} {last : Option Stmt} (loc : Loc) :
    Holds (add (caught h.param) (all (.stmt tried :: .stmt h.body :: last.toList.map .stmt))) x →
    Holds (all [.stmt (.tryCatch loc tried (some h) last)]) x
  -- Bodies that may log exceptions.
  logged : Index
  logged_eq : logged = if logs then
    add (add (bound true [exceptionName]) (add handler (temps "catch"))) called else zero
  /-- What a block does in its scope. -/
  inside : Loc → List Stmt → Index
  closed_inside (loc : Loc) (ss : List Stmt) : closed (inside loc ss) = all [.stmt (.block loc ss)]
  insides {x : Emit Unit} {ss : List Stmt} (loc : Loc) : Holds (add logged (all (ss.map .stmt))) x →
    Holds (inside loc ss) x ∧ Frames (.stmt (.block loc ss)) x

theorem Emit.newTemporary_name ⦃s : Session⦄ ⦃x : Symbol⦄ ⦃t : Session⦄
    (h : newTemporary v value stem loc s = .ok (x, t)) : Symbol.IsTemporary stem x.name := by
  obtain ⟨y, r, h1, h⟩ := bind_ok.1 h
  have hxy : y = x := by
    split at h
    all_goals
      simp only [bind_ok, pure_ok] at h
      obtain ⟨_, _, -, _, _, -, _, _, -, rfl, -⟩ := h
      rfl
  exact hxy ▸ (temporary_ok h1).1

namespace Judgment.Holds

variable {α β : Type} {J : StmtJudgment v logs} {a b : J.Index} {f : α → Emit β}

theorem step {x : Emit α} (hx : Inert v x) (hf : ∀ r, J.Holds a (f r)) :
    J.Holds a (x >>= f) := .own (J.inert hx) hf

theorem learn {P : α → Prop} {x : Emit α} (hx : J.Holds a x)
    (hP : ∀ ⦃s r t⦄, x s = .ok (r, t) → P r) (hf : ∀ r, P r → J.Holds b (f r)) :
    J.Holds (J.add a b) (x >>= f) := by
  refine J.runs fun s r t h => ?_
  obtain ⟨r', u, h1, h2⟩ := bind_ok.1 h
  exact ⟨x >>= fun _ => f r', J.bind hx fun _ => hf r' (hP h1), bind_ok.2 ⟨r', u, h1, h2⟩⟩

end Judgment.Holds

namespace StmtJudgment

variable {α : Type} {leaves : Bool} {J : StmtJudgment v logs} {a b : J.Index} {f : α → Emit Unit}
  {x : Emit α}

theorem add_left_comm (J : StmtJudgment v logs) (a b c : J.Index) :
    J.add a (J.add b c) = J.add b (J.add a c) := by
  rw [← J.add_assoc, J.add_comm a, J.add_assoc]

theorem all_cons (J : StmtJudgment v logs) (u : Use) (us : List Use) :
    J.all (u :: us) = J.add (J.all [u]) (J.all us) := J.all_append [u] us

theorem temps_add_left (J : StmtJudgment v logs) (stem : String) (a : J.Index) :
    J.add (J.temps stem) (J.add (J.temps stem) a) = J.add (J.temps stem) a := by
  rw [← J.add_assoc, J.temps_add]

theorem patchHere (k : Nat) : J.Holds J.zero (patchHere k) := .step .here fun _ => J.inert (.patch _ _)

theorem patchAll (ks : List Nat) (target : Nat) : J.Holds J.zero (patchAll ks target) := by
  induction ks with
  | nil => exact J.pure ()
  | cons k ks ih => exact .step (.patch _ _) fun _ => ih

theorem bareReturn : J.Holds J.zero (bareReturn v) := J.inert (.untracked _)

theorem handOff (state : RunState) : J.Holds J.zero (handOff v state) :=
  .step (.untracked _) fun _ => J.inert .dropDepth

theorem emptyReturn : J.Holds J.zero (emptyReturn v) := by
  refine .ite (fun _ => .own ?_ fun _ => handOff .return) fun _ => bareReturn
  unfold void
  split
  · exact J.emit rfl (Operation.isAdmitted_of_has ‹_› rfl)
  · exact .plain rfl rfl

theorem frameExit : J.Holds J.zero (frameExit v) :=
  .step .frame fun _ => .ite (fun _ => J.pure ()) fun _ => emptyReturn

theorem withTemporary {f : Symbol → Emit α}
    (hf : ∀ x, Symbol.IsTemporary stem x.name → J.Holds a (f x)) : J.Holds a (temporary stem >>= f) := by
  rw [← J.zero_add a]
  exact .learn (J.inert (.temporary stem)) (fun _ _ _ h => (temporary_ok h).1) hf

theorem newTemporary (stem : String) (loc : Loc) (h : J.Holds a value) :
    J.Holds (J.add (J.temps stem) a) (newTemporary v value stem loc) := by
  refine withTemporary fun x hx => ?_
  have hlast : J.Holds J.zero (do
      assignPop v
      pure x) := .own J.assignPop fun _ => J.pure x
  refine .ite (fun _ => ?_) fun _ => ?_
  · rw [J.add_comm]
    exact J.bind h fun _ => .last (J.pushTemporary loc hx) fun _ => hlast
  · exact J.bind (J.pushTemporary loc hx) fun _ => .last h fun _ => hlast

/-- Every run of the action ends with the scope at hand, and what is before that has the index, up to
what does not count outside. -/
def Ends (J : StmtJudgment v logs) (leaves : Bool) (a : J.Index) (x : Emit Unit) : Prop :=
  ∀ ⦃s t⦄, x s = .ok ((), t) → ∃ b y u, J.closed b = J.closed a ∧ J.Holds b y ∧
    y s = .ok ((), u) ∧ leaveScope v leaves u = .ok ((), t)

/-- Every run of the action opens a scope, and ends with it. -/
def Scopes (J : StmtJudgment v logs) (leaves : Bool) (a : J.Index) (x : Emit Unit) : Prop :=
  ∀ ⦃s t⦄, x s = .ok ((), t) → ∃ kind b y u, J.closed b = J.closed a ∧ J.Holds b y ∧
    y (s.open kind) = .ok ((), u) ∧ leaveScope v leaves u = .ok ((), t)

namespace Ends

theorem learn {P : α → Prop} (hx : J.Holds a x) (hP : ∀ ⦃s r t⦄, x s = .ok (r, t) → P r)
    (hf : ∀ r, P r → J.Ends leaves b (f r)) : J.Ends leaves (J.add a b) (x >>= f) := by
  intro s t h
  obtain ⟨r, w, h1, h2⟩ := bind_ok.1 h
  obtain ⟨b', y, u, hb, hy, hu, hleave⟩ := hf r (hP h1) h2
  refine ⟨J.add a b', x >>= fun _ => y, u, ?_, J.bind hx fun _ => hy, bind_ok.2 ⟨r, w, h1, hu⟩, hleave⟩
  rw [J.closed_add, J.closed_add, hb]

theorem bind (hx : J.Holds a x) (hf : ∀ r, J.Ends leaves b (f r)) :
    J.Ends leaves (J.add a b) (x >>= f) :=
  learn (P := fun _ => True) hx (fun _ _ _ _ => trivial) fun r _ => hf r

theorem own (hx : J.Holds J.zero x) (hf : ∀ r, J.Ends leaves a (f r)) :
    J.Ends leaves a (x >>= f) := by
  rw [← J.zero_add a]
  exact bind hx hf

theorem step (hx : Inert v x) (hf : ∀ r, J.Ends leaves a (f r)) :
    J.Ends leaves a (x >>= f) := own (J.inert hx) hf

theorem append {ws : List Use} (hx : J.Lowers us x) (hf : ∀ r, J.Ends leaves (J.all ws) (f r)) :
    J.Ends leaves (J.all (us ++ ws)) (x >>= f) := by
  rw [J.all_append]
  exact bind hx hf

theorem first (hx : J.Lowers [u] x) (hf : ∀ r, J.Ends leaves (J.all us) (f r)) :
    J.Ends leaves (J.all (u :: us)) (x >>= f) :=
  append hx hf

theorem ite {c : Prop} [Decidable c] {x y : Emit Unit} (hx : J.Ends leaves a x)
    (hy : J.Ends leaves a y) : J.Ends leaves a (if c then x else y) := by
  split
  · exact hx
  · exact hy

theorem reading (hx : J.Holds (J.temps stem) x)
    (hf : ∀ r, J.Ends leaves (J.add (J.temps stem) a) (f r)) :
    J.Ends leaves (J.add (J.temps stem) a) (x >>= f) := by
  rw [← J.temps_add_left]
  exact bind hx hf

theorem idle {x : Emit Unit} (h : J.Ends leaves a x) : J.Ends leaves (J.add (J.temps stem) a) x := by
  intro s t hr
  obtain ⟨b, y, u, hb, hy, hu, hleave⟩ := h hr
  refine ⟨J.add (J.temps stem) b, y, u, ?_, J.idle stem hy, hu, hleave⟩
  rw [J.closed_add, J.closed_add, hb]

theorem leave : J.Ends leaves J.zero (leaveScope v leaves) :=
  fun s _ h => ⟨J.zero, pure (), s, rfl, J.pure (), rfl, h⟩

theorem endLoop (exits : Option Nat) : J.Ends true J.zero (endLoop v exits) :=
  step .here fun _ => own (patchAll _ _) fun _ => step .takeBreaks fun _ =>
    own (patchAll _ _) fun _ => leave

end Ends

namespace Scopes

variable {x : Emit Unit}

theorem opened (kind : ScopeKind) (h : J.Ends leaves a x) :
    J.Scopes leaves a (pushScope kind >>= fun _ => x) := by
  intro s t hr
  obtain ⟨_, r, h1, h2⟩ := bind_ok.1 hr
  obtain rfl := pushScope_ok.1 h1
  obtain ⟨b, y, u, hrest⟩ := h h2
  exact ⟨kind, b, y, u, hrest⟩

theorem required {c : Bool} {cause : Cause} (h : J.Scopes leaves a x) :
    J.Scopes leaves a (require c loc cause >>= fun _ => x) := by
  intro s t hr
  obtain ⟨_, r, h1, h2⟩ := bind_ok.1 hr
  obtain ⟨-, rfl⟩ := require_ok.1 h1
  exact h h2

theorem holds (h : J.Scopes leaves a x) : J.Holds (J.closed a) x := by
  refine J.runs fun s r t hr => ?_
  obtain ⟨kind, b, y, u, hb, hy, hu, hleave⟩ := h hr
  refine ⟨_, hb ▸ J.enclosed kind leaves hy, bind_ok.2 ⟨(), s.open kind, pushScope_ok.2 rfl, ?_⟩⟩
  exact bind_ok.2 ⟨(), u, hu, hleave⟩

end Scopes

/-- The action lowers the statement in a scope of its own. -/
def LowersScope (J : StmtJudgment v logs) (leaves : Bool) (s : Stmt) (x : Emit Unit) : Prop :=
  J.Lowers [.stmt s] x ∧ ∃ k a, J.Scopes leaves a x ∧ J.add k (J.closed a) = J.all [.stmt s]

namespace LowersScope

variable {x : Emit Unit}

theorem of_scopes (h : J.Scopes leaves a x) (ha : J.closed a = J.all [.stmt s]) :
    J.LowersScope leaves s x := by
  refine ⟨?_, J.zero, a, h, by rw [J.zero_add, ha]⟩
  rw [Judgment.Lowers, ← ha]
  exact h.holds

theorem opened (kind : ScopeKind) (hs : (Part.stmt s).isScope = true)
    (hb : (Use.stmt s).isBlock = false) (hc : (Use.stmt s).checked? = none)
    (hx : J.Ends leaves (J.add ((Part.stmt s).stem?.elim J.zero J.temps) (J.all s.uses)) x) :
    J.LowersScope leaves s (pushScope kind >>= fun _ => x) :=
  of_scopes (.opened kind hx) (by rw [J.scope_all hs hb, hc, J.since_none, J.zero_add])

theorem gated {c : Capability} {n : Nat} {cause : Cause} (kind : ScopeKind)
    (hs : (Part.stmt s).isScope = true) (hb : (Use.stmt s).isBlock = false)
    (hn : (Use.stmt s).checked? = some n) (hc : c.span = (n, 13))
    (hx : J.Ends leaves (J.add ((Part.stmt s).stem?.elim J.zero J.temps) (J.all s.uses)) x) :
    J.LowersScope leaves s
      (require (v.has c) loc cause >>= fun _ => pushScope kind >>= fun _ => x) := by
  have hall := J.scope_all hs hb
  have hscope := Scopes.opened kind hx
  rw [hn] at hall
  refine ⟨?_, _, _, hscope.required, hall.symm⟩
  rw [Judgment.Lowers, hall]
  exact J.checked hc fun _ => hscope.holds

theorem plain (kind : ScopeKind) (hs : (Part.stmt s).isScope = true)
    (hb : (Use.stmt s).isBlock = false) (hc : (Use.stmt s).checked? = none)
    (hstem : (Part.stmt s).stem? = none) (hx : J.Ends leaves (J.all s.uses) x) :
    J.LowersScope leaves s (pushScope kind >>= fun _ => x) :=
  opened kind hs hb hc (by rwa [hstem, elim_none, J.zero_add])

end LowersScope

end StmtJudgment

/-- The code of a statement has the judgment in each of its uses. -/
structure StmtJudged {v : Version} {logs : Bool} (J : StmtJudgment v logs) (s : Stmt) (c : StmtCode) :
    Prop where
  stmt : c.stmt = s
  run : J.Lowers [.stmt s] c.run
  block : ∀ body, c.block? = some body → J.Frames (.stmt s) body
  loop : ∀ loop, c.loop? = some loop → ∀ label, J.LowersScope true s (loop label)
  declares : ∀ declares, c.declares? = some declares → ∀ fromStack,
    J.Lowers [.stmt s] (declares fromStack)
  scope : s.isScoped = true → J.LowersScope s.leaves s c.run

variable {leaves : Bool} {J : StmtJudgment v logs} {e left right : Expr} {c l r : ExprCode}
  {es : List Expr} {cs : List ExprCode} {role : Role} {d : StmtCode} {ss : List Stmt}
  {ds : List StmtCode} {n : Node} {m : NodeCode} {ci : Option NodeCode} {cl : Option StmtCode}
  {init : Option Node} {last : Option Stmt}

/-- The code of a node has the judgment. -/
abbrev NodeJudged (J : StmtJudgment v logs) := NodeRel (ExprJudged J.toJudgment) (StmtJudged J)

theorem logical_lowers (op : LogicalOp) (hl : ExprJudged J.toJudgment left l)
    (hr : ExprJudged J.toJudgment right r) :
    J.Lowers [.expr role (.logical loc op left right)] (logical v loc op l r) := by
  unfold logical
  split
  · rename_i hop
    obtain rfl := eq_of_beq hop
    exact .gated rfl rfl rfl rfl fun hv => .first hl.kept fun _ => J.coalesce hv hr.value
  · rename_i hop
    have hcheck : Use.checked? (.expr role (.logical loc op left right)) = none := by
      cases op <;> first | rfl | exact absurd rfl hop
    refine .node rfl hcheck rfl (.first hl.kept fun _ => .step (.logicalJump _ _) fun k => ?_)
    have hright : J.Lowers [.expr .value right] (do
        r.value
        patchHere k) := .last hr.value fun _ => J.patchHere _
    exact .ite (fun _ => .own J.pop fun _ => hright) fun _ => hright

theorem conditional_lowers {test consequent alternate : Expr} {ct cc ca : ExprCode}
    (ht : ExprJudged J.toJudgment test ct) (hc : ExprJudged J.toJudgment consequent cc)
    (ha : ExprJudged J.toJudgment alternate ca) :
    J.Lowers [.expr role (.conditional loc test consequent alternate)] (conditional v ct cc ca) := by
  refine .node rfl rfl rfl (.first ht.value fun _ => .step (.jump rfl) fun k1 => ?_)
  refine .first hc.referred fun _ => .step (.jump rfl) fun k2 => ?_
  have hrest : J.Lowers [.expr .value alternate] (do
      patchHere k1
      ca.value
      patchHere k2) := .own (J.patchHere _) fun _ => .last ha.value fun _ => J.patchHere _
  exact .ite (fun _ => .own J.pop fun _ => hrest) fun _ => .step .dropDepth fun _ => hrest

theorem parameters_readies (h : Forall₂ (ExprJudged J.toJudgment) es cs) :
    J.Readies (J.all (es.map (.expr .param))) (parameters cs) := by
  induction h with
  | nil =>
    rw [map_nil, J.all_nil]
    exact J.readyNil
  | cons he _ ih =>
    rw [map_cons, J.all_cons]
    exact J.readyCons he.param ih

theorem closureBody_lowers (h : NodeJudged J n m) : J.Lowers [n.use] (closureBody v m) := by
  cases h with
  | stmt h => exact .last h.run fun _ => J.frameExit
  | expr h => exact .last h.value fun _ => J.handOff _

theorem closure_lowers (isMethod : Bool) (hn : u.part.body? = some n) (hu : u.isSuspension = false)
    (hm : u.part.members = []) (huses : u.uses v = es.map (.expr .param))
    (hparams : Forall₂ (ExprJudged J.toJudgment) es cs) (hbody : NodeJudged J n m) :
    J.Lowers [u] (Emit.closure v loc cs m isMethod) := by
  rw [Judgment.Lowers, J.routine_all hn hu, hm, huses, J.defines_nil, J.zero_add]
  exact J.closure loc isMethod (parameters_readies hparams) (closureBody_lowers hbody)

theorem subroutine_lowers {r : RoutineCode} (isMethod : Bool) (hn : u.part.body? = some n)
    (hu : u.isSuspension = false) (hm : u.part.members = (r.id.bind Expr.ident?).toList)
    (huses : u.uses v = es.map (.expr .param))
    (hparams : Forall₂ (ExprJudged J.toJudgment) es r.params) (hbody : NodeJudged J n r.body) :
    J.Lowers [u] (Emit.subroutine v loc r isMethod) := by
  rw [Judgment.Lowers, J.routine_all hn hu, hm, huses]
  refine J.subroutine loc isMethod (parameters_readies hparams) fun _ body _ h => ?_
  obtain ⟨ht, s, c, rfl, hs, hb⟩ := hbody.block_ok h
  exact ⟨ht, hs.block _ hb⟩

theorem awaitedTask_holds (h : ExprJudged J.toJudgment e c) :
    J.Holds ((Part.expr (.await loc e)).body?.elim (J.all [.expr .value e]) J.framed)
      (awaitedTask v c) := by
  unfold awaitedTask
  rw [h.expr]
  cases e
  case call loc callee arguments =>
    rw [show Part.body? _ = some _ from rfl, elim_some, ← J.add_zero (J.framed _)]
    exact J.closure _ _ J.readyNil (closureBody_lowers (.expr h))
  all_goals exact h.value

theorem await_lowers (h : ExprJudged J.toJudgment e c) :
    J.Lowers [.expr role (.await loc e)] (Emit.await v loc c) := by
  refine J.awaits role loc e (.own (J.member _ _ _) fun _ => J.bind (awaitedTask_holds h) fun _ => ?_)
  refine J.bind (J.emitCall _ _) fun _ => J.withTemporary fun x hx => ?_
  rw [← J.temps_add_left, J.add_left_comm (J.temps "task") J.suspension]
  refine J.bind (J.pushTemporary _ hx) fun _ => J.bind (J.suspends (.inl rfl)) fun _ => ?_
  refine .own (J.member _ _ _) fun _ => J.bind (J.readTemporary _ hx) fun _ => ?_
  exact .last (J.emitCall _ _) fun _ => J.inert .warnAwait

theorem runAll_lowers (h : Forall₂ (StmtJudged J) ss ds) :
    J.Lowers (ss.map .stmt) (runAll ds) := by
  induction h with
  | nil => exact .leaf (J.pure ())
  | cons hs _ ih => exact .first hs.run fun _ => ih

theorem inScope_holds (h : StmtJudged J s d) : J.Holds (J.closed (J.all [.stmt s])) (d.inScope v) := by
  have hclosed (hs : s.isClosed = true) : J.Holds (J.closed (J.all [.stmt s])) d.run :=
    (J.closed_stmt hs).symm ▸ h.run
  unfold StmtCode.inScope
  rw [h.stmt]
  split
  case h_4 => exact J.enclosed _ _ h.run
  all_goals exact hclosed rfl

theorem StmtJudgment.Ends.inner {f : Unit → Emit Unit} (h : StmtJudged J s d)
    (hf : ∀ r, J.Ends leaves (J.all us) (f r)) :
    J.Ends leaves (J.all (.stmt s :: us)) (d.inScope v >>= f) := by
  intro q t hr
  obtain ⟨b, y, u, hb, hy⟩ := Ends.bind (inScope_holds h) hf hr
  refine ⟨b, y, u, ?_, hy⟩
  rw [hb, J.all_cons (.stmt s) us, J.closed_add, J.closed_closed, J.closed_add]

theorem StmtJudgment.Ends.leaf (h : J.Ends leaves J.zero x) :
    J.Ends leaves (J.all []) x := by rwa [J.all_nil]

theorem ifElse_scope {alternate : Option Stmt} {ca : Option StmtCode}
    (ht : ExprJudged J.toJudgment e c) (hc : StmtJudged J s d)
    (ha : Option.Rel (StmtJudged J) alternate ca) :
    J.LowersScope false (.ifElse loc e s alternate) (ifElse v c d ca) := by
  refine .plain _ rfl rfl rfl rfl (.first ht.kept fun _ => .step (.jump rfl) fun k => .inner hc fun _ => ?_)
  cases ha with
  | some ha =>
    refine .step (.jump rfl) fun _ => .own (J.patchHere _) fun _ => .inner ha fun _ => .leaf ?_
    exact .own (J.patchHere _) fun _ => .leave
  | none =>
    have hlast : J.Ends false J.zero (do
        patchHere k
        leaveScope v false) := .own (J.patchHere _) fun _ => .leave
    refine .leaf (.ite ?_ hlast)
    exact .step (.jump rfl) fun _ => .own (J.patchHere _) fun _ => hlast

theorem loopTest_lowers {test : Option Expr} {ct : Option ExprCode}
    (h : Rel (ExprJudged J.toJudgment) test ct) :
    J.Lowers (test.toList.map (.expr .value)) (loopTest v ct) := by
  cases h with
  | none => exact .leaf (J.pure _)
  | some h => exact .last h.kept fun _ => .step (.jump rfl) fun _ => J.pure _

theorem forInit_lowers (h : Rel (NodeJudged J) init ci) :
    J.Lowers (init.toList.map Node.use) (forInit ci) := by
  cases h with
  | none => exact .leaf (J.pure ())
  | some h =>
    exact h.forInit (P := fun n => J.Lowers [n.use]) (fun _ _ _ h hd => h.declares _ hd false)
      (fun _ _ h => h.value) fun _ _ _ => J.reject

theorem forLoop_scope {test update : Option Expr} {ct cu : Option ExprCode}
    (hi : Option.Rel (NodeJudged J) init ci) (ht : Option.Rel (ExprJudged J.toJudgment) test ct)
    (hu : Option.Rel (ExprJudged J.toJudgment) update cu) (hb : StmtJudged J s d)
    (label : Option String) :
    J.LowersScope true (.forLoop loc init test update s) (Emit.forLoop v loc ci ct cu d label) := by
  have hlast (start : Nat) (exit : Option Nat) : J.Ends true J.zero (do
      jumpTo v start loc.line
      endLoop v exit) := .step (.jumpTo _ _) fun _ => .endLoop _
  refine .plain _ rfl rfl rfl rfl ?_
  simp only [Stmt.uses, append_assoc]
  refine .append (forInit_lowers hi) fun _ => .step .here fun start => ?_
  refine .append (loopTest_lowers ht) fun exit => .append hb.run fun _ => .step .here fun _ => ?_
  refine .step .takeContinues fun _ => .own (J.patchAll _ _) fun _ => ?_
  cases hu with
  | none => exact .leaf (hlast start exit)
  | some hu => exact .first hu.steps fun _ => .leaf (hlast start exit)

theorem isTrue_lowers (h : ExprJudged J.toJudgment e c) :
    J.Lowers [.expr .value e] (loopTest v (if isTrue c.expr then none else some c)) := by
  obtain rfl := h.expr
  split
  · rename_i htrue
    unfold Emit.isTrue at htrue
    split at htrue
    · rename_i he
      rw [he]
      exact .node rfl rfl rfl (.leaf (J.pure _))
    · cases htrue
  · exact loopTest_lowers (.some h)

theorem whileLoop_scope (ht : ExprJudged J.toJudgment e c) (hb : StmtJudged J s d)
    (label : Option String) :
    J.LowersScope true (.whileLoop loc e s) (Emit.whileLoop v c d label) := by
  refine .plain _ rfl rfl rfl rfl (.step .here fun start => .first (isTrue_lowers ht) fun exit => ?_)
  refine .inner hb fun _ => .leaf (.step (.jumpBack _ _) fun back => .step .takeContinues fun _ => ?_)
  exact .own (J.patchAll _ _) fun _ => .endLoop _

theorem doWhile_scope (ht : ExprJudged J.toJudgment e c) (hb : StmtJudged J s d)
    (label : Option String) : J.LowersScope true (.doWhile loc s e) (Emit.doWhile v d c label) := by
  refine .plain _ rfl rfl rfl rfl (.step .here fun start => .inner hb fun _ => .step .here fun _ => ?_)
  refine .first ht.kept fun _ => .leaf (.step .takeContinues fun _ => .own (J.patchAll _ _) fun _ => ?_)
  exact .step (.jump rfl) fun exit => .step (.jumpTo _ _) fun _ => .endLoop _

theorem foreachLeft_lowers (h : NodeJudged J n m) : J.Lowers [n.targetUse] (foreachLeft m) :=
  h.foreachLeft (P := fun n => J.Lowers [n.targetUse]) (fun _ _ _ h hd => h.declares _ hd true)
    (fun _ _ _ h hp => pattern_lowers h hp) fun _ _ _ => J.reject

theorem foreach_scope (hl : NodeJudged J n m) (hr : ExprJudged J.toJudgment e c)
    (hb : StmtJudged J s d) (label : Option String) :
    J.LowersScope true (.foreach loc n e s) (Emit.foreach v loc m c d label) := by
  refine .gated (c := .foreach) (.loop label) rfl rfl rfl rfl ?_
  change J.Ends true (J.add (J.temps "in") (J.all [.expr .value e, n.targetUse, .stmt s])) _
  rw [J.all_cons, J.add_left_comm, ← J.temps_add_left, ← J.add_zero (J.temps "in")]
  refine .bind hr.value fun _ => .step (.symbol _) fun _ => .step (.pathed (by simp)) fun _ => ?_
  refine .learn (J.newTemporary _ _ (J.pure ())) newTemporary_name fun items hitems => ?_
  rw [J.add_zero]
  refine .step .here fun _ => .reading (J.readTemporary _ hitems) fun _ => .step (.symbol _) fun _ => ?_
  refine .step (.pathed (by simp)) fun _ => .step (.jump rfl) fun _ => ?_
  refine .reading (J.readTemporary _ hitems) fun _ => .idle (.own (.plain rfl rfl) fun _ => ?_)
  refine .first (foreachLeft_lowers hl) fun _ => .inner hb fun _ => .leaf (.step .here fun _ => ?_)
  refine .step .takeContinues fun _ => .own (J.patchAll _ _) fun _ => ?_
  exact .step (.jumpTo _ _) fun _ => .endLoop _

/-- The code of a case has the judgment. -/
abbrev CaseJudged (J : StmtJudgment v logs) := CaseRel (ExprJudged J.toJudgment) (StmtJudged J)

variable {cases : List SwitchCase} {ks : List CaseCode}

theorem caseTests_holds {subject : Symbol} (hsubject : Symbol.IsTemporary "case" subject.name)
    (equals : Symbol) (dflt : Option UInt32) (h : Forall₂ (CaseJudged J) cases ks) :
    J.Holds (J.add (J.temps "case") (J.all ((cases.filterMap (·.test)).map (.expr .value))))
      (caseTests v subject equals dflt ks) := by
  induction h generalizing dflt with
  | nil => exact J.idle _ (.leaf (J.pure _))
  | @cons k c cases cs hk _ ih =>
    obtain ⟨ht, -⟩ := hk
    cases ht with
    | none => exact .required (.last (ih _) fun _ => J.pure _)
    | @some e ct ht =>
      simp only [filterMap_cons, map_cons]
      rw [J.all_cons, ← J.temps_add_left, J.add_left_comm (J.temps "case") (J.all [_])]
      refine J.bind (J.readTemporary _ hsubject) fun _ => J.bind ht.value fun _ => ?_
      exact .step (.named rfl) fun _ => .step (.jump rfl) fun _ => .last (ih dflt) fun _ => J.pure _

theorem caseBodies_lowers {jumps : List (Option Nat)} (toDefault : Nat)
    (h : Forall₂ (CaseJudged J) cases ks) (hjumps : jumps.length = ks.length) :
    J.Lowers ((cases.flatMap (·.consequent)).map .stmt) (caseBodies toDefault ks jumps) := by
  induction h generalizing jumps with
  | nil => exact .leaf (J.pure ())
  | cons hk _ ih =>
    obtain ⟨-, hstmts⟩ := hk
    rcases jumps with _ | ⟨jump, jumps⟩
    · cases hjumps
    · rw [flatMap_cons, map_append]
      refine .own (J.patchHere _) fun _ => .append (runAll_lowers hstmts) fun _ => ?_
      exact ih (Nat.succ.inj hjumps)

theorem switch_scope (hd : ExprJudged J.toJudgment e c) (h : Forall₂ (CaseJudged J) cases ks) :
    J.LowersScope true (.switch loc e cases) (Emit.switch v loc c ks) := by
  refine .opened _ rfl rfl rfl ?_
  show J.Ends true (J.add (J.temps "case") (J.all (.expr .value e :: (_ ++ _)))) _
  rw [J.all_cons, J.all_append, ← J.temps_add_left, J.add_left_comm (J.temps "case") (J.all [_]),
    ← J.add_assoc (J.temps "case") (J.all _) (J.all _), ← J.add_assoc (J.temps "case") (J.all [_])]
  refine .learn (J.newTemporary _ _ hd.value) newTemporary_name fun subject hsubject => ?_
  -- Every case has its jump, so all bodies are lowered.
  refine .step (.operatorSymbol _ _) fun equals => .learn (caseTests_holds hsubject equals none h)
    (fun _ _ _ hr => caseTests_length hr) fun r hr => .step (.jump rfl) fun toDefault => ?_
  rw [← J.add_zero (J.all _)]
  exact .bind (caseBodies_lowers toDefault h hr) fun _ => .endLoop _

theorem continueLoop_holds (label : Option String) : J.Holds J.zero (continueLoop v loc label) :=
  .step .frame fun _ => .required (.step (.jump rfl) fun _ => J.discard (J.inert (.noteContinue _ _)))

theorem breakOut_holds (label : Option String) : J.Holds J.zero (breakOut v loc label) :=
  .step .frame fun _ => .required (.step (.jump rfl) fun _ => J.discard (J.inert (.noteBreak _ _)))

theorem labeled_scope {label : String} (h : StmtJudged J s d) :
    J.LowersScope true (.labeled loc label s) (Emit.labeled loc label d) := by
  have hall : J.all [.stmt (.labeled loc label s)] = J.all [.stmt s] := J.transparent_all rfl
  have hlabeled {q t : Session} (hr : labeled loc label d q = .ok ((), t)) :
      ∃ loop, d.loop? = some loop ∧ loop (some label) q = .ok ((), t) := by
    obtain ⟨f, r, h1, hrest⟩ := bind_ok.1 hr
    obtain ⟨-, rfl⟩ := frame_ok.1 h1
    obtain ⟨_, r', h2, hlast⟩ := bind_ok.1 hrest
    obtain ⟨-, rfl⟩ := require_ok.1 h2
    cases hloop : d.loop? <;> simp only [hloop] at hlast
    · exact (reject_ok.1 hlast).elim
    · exact ⟨_, rfl, hlast⟩
  cases hloop : d.loop? with
  | some loop =>
    obtain ⟨hx, k, a, hscope, ha⟩ := h.loop _ hloop (some label)
    refine ⟨J.runs fun q r t hr => ?_, k, a, fun q t hr => ?_, ha.trans hall.symm⟩
    all_goals
      obtain ⟨loop', hloop', hr⟩ := hlabeled hr
      obtain rfl := some.inj (hloop.symm.trans hloop')
    · exact ⟨_, hall ▸ hx, hr⟩
    · exact hscope hr
  | none =>
    have hnone {P : Prop} {q t : Session} (hr : labeled loc label d q = .ok ((), t)) : P := by
      obtain ⟨loop, hloop', -⟩ := hlabeled hr
      cases hloop.symm.trans hloop'
    refine ⟨J.runs fun q r t hr => hnone hr, J.all [.stmt (.labeled loc label s)], J.zero,
      fun q t hr => hnone hr, ?_⟩
    rw [J.closed_zero, J.add_zero]

theorem returnValue_lowers {argument : Option Expr} {ca : Option ExprCode}
    (h : Rel (ExprJudged J.toJudgment) argument ca) :
    J.Lowers (argument.toList.flatMap Expr.returnedUses) (returnValue v ca) := by
  cases h with
  | none => exact .leaf (.own J.emptyReturn fun _ => J.inert .markReturn)
  | @some e c h =>
    rw [toList_some, flatMap_singleton]
    refine .last (.last h.returned fun _ => ?_) fun _ => J.inert .markReturn
    refine .ite (fun _ => ?_) fun _ => J.handOff _
    exact .own J.pop fun _ => .own J.bareReturn fun _ => J.bareReturn

theorem bindThrown_holds (name : String) (nameLoc : Loc) (line : UInt32) :
    J.Holds (J.add (J.bound true [name]) (J.add J.handler (J.temps "catch")))
      (bindThrown v name nameLoc line) := by
  refine .own (.plain rfl rfl) fun _ => J.bind (J.pushName _ _ _) fun _ => ?_
  refine J.bind (J.catches (.inl rfl)) fun _ => J.withTemporary fun x hx => ?_
  exact .last (J.pushTemporary _ hx) fun _ => J.assignPop

theorem catchParameter_holds (line : UInt32) (param : Option Expr) :
    J.Holds (J.caught param) (catchParameter v line param) := by
  unfold catchParameter
  cases param with
  | none => exact J.caughtUnnamed (.own (.plain rfl rfl) fun _ => J.catches (.inr rfl))
  | some param =>
    simp only
    cases hname : param.ident? with
    | none => exact J.reject
    | some name => exact J.caughtNamed hname (bindThrown_holds _ _ _)

theorem finally_lowers (h : Option.Rel (StmtJudged J) last cl) :
    J.Lowers (last.toList.map .stmt) (match cl with
      | none => pure ()
      | some finalizer => do
        require finalizer.block?.isSome finalizer.loc .catchNotBlock
        finalizer.run) := by
  cases h with
  | none => exact .leaf (J.pure ())
  | some h => exact .required h.run

theorem tryCatch_lowers {handler : Option CatchClause} {ch : Option CatchCode}
    (ht : StmtJudged J s d) (hh : Option.Rel (ClauseRel (StmtJudged J)) handler ch)
    (hl : Option.Rel (StmtJudged J) last cl) :
    J.Lowers [.stmt (.tryCatch loc s handler last)] (Emit.tryCatch v loc d ch cl) := by
  cases hh with
  | none =>
    refine J.tried loc (.step (.jump rfl) fun k => .required (.first ht.run fun _ => ?_))
    exact .step (.setState _) fun _ => .own (J.patchHere _) fun _ => finally_lowers hl
  | some hh =>
    obtain @⟨_, _, body, _, hb⟩ := hh
    refine J.triedCaught loc ?_
    rw [J.all_cons, J.add_left_comm, J.all_cons (.stmt body), ← J.add_assoc (J.caught _)]
    refine .step (.jump rfl) fun k => .required (J.bind ht.run fun _ => .step (.setState _) fun _ => ?_)
    refine .own (J.patchHere _) fun _ => .step (.jump rfl) fun toEnd => ?_
    refine J.bind (.required (J.bind (catchParameter_holds _ _) fun _ => hb.run)) fun _ => ?_
    exact .own (J.patchHere _) fun _ => finally_lowers hl

theorem finalizer_lowers (h : ExprJudged J.toJudgment e c) :
    J.Lowers [.stmt (.finalizer loc e)] (finalizer v loc c) := by
  have hcheck : J.Holds J.zero (checkFinalizer c.expr) := by
    unfold checkFinalizer
    split
    · exact .own .check fun _ => .check
    · exact .check
    · exact J.reject
  rw [Judgment.Lowers, J.finalizer_all, J.add_comm]
  refine .own hcheck fun _ => J.bind h.value fun _ => J.withTemporary fun x hx => ?_
  refine .last (J.pushTemporary loc hx) fun _ => .step (.symbol _) fun _ => ?_
  exact .step (.pathed (by simp)) fun _ => J.assignPop

theorem logException_holds : J.Holds J.called (logException v) := by
  refine .own (J.member _ _ _) fun _ => .own (J.text _ _ _) fun _ => .own (J.text _ _ _) fun _ => ?_
  refine .last (J.emitCall _ _) fun _ => .own (.ite (fun _ => .plain rfl rfl) fun _ => J.pure ()) fun _ => ?_
  exact .own J.pop fun _ => .step (.readName _ _) fun _ => .plain rfl rfl

theorem body_holds (h : Forall₂ (StmtJudged J) ss ds) :
    J.Holds (J.add J.logged (J.all (ss.map .stmt))) (body v logs ds) := by
  rw [J.logged_eq]
  unfold body
  cases logs with
  | false =>
    simp only [Bool.not_false, if_true, Bool.false_eq_true, if_false, J.zero_add]
    exact runAll_lowers h
  | true =>
    simp only [Bool.not_true, Bool.false_eq_true, if_false, if_true]
    rw [J.add_comm]
    refine .step (.jump rfl) fun _ => J.bind (runAll_lowers h) fun _ => .step (.setState _) fun _ => ?_
    refine .own (J.patchHere _) fun _ => .step (.jump rfl) fun _ => ?_
    exact J.bind (bindThrown_holds _ _ _) fun _ => .last logException_holds fun _ => J.patchHere _

theorem block_scope (h : Forall₂ (StmtJudged J) ss ds) :
    J.LowersScope (!ss.isEmpty) (.block loc ss) (block v ss.isEmpty (body v logs ds)) := by
  refine .of_scopes (.opened .block ?_) (J.closed_inside loc ss)
  rw [← J.add_zero (J.inside loc ss)]
  exact .bind (J.insides loc (body_holds h)).1 fun _ => .leave

theorem moduleConstructor_lowers (he : ExprJudged J.toJudgment e c) (hs : StmtJudged J s d) :
    J.Lowers [.expr .value e, .stmt s] (moduleConstructor v c d) :=
  .first he.value fun _ => .own (.plain rfl rfl) fun _ => .last hs.run fun _ => J.inert (.setState _)

theorem sourceFile_holds (path : String) : J.Holds J.zero (sourceFile v path) :=
  .step (.plainSymbol _) fun _ => .step (.named rfl) fun _ => J.inert (.setSource _)

theorem included_holds {a : J.Index} {path : String} (h : J.Holds a x) :
    J.Holds a (included v loc.line path x) := by
  refine .step .frame fun f => .step (.plainSymbol _) fun _ => .step (.setSource _) fun _ => ?_
  refine .step (.named rfl) fun _ => .last h fun _ => ?_
  have hlast (outer : Symbol) : J.Holds J.zero (do
      emit v (.named .sourceFile outer) loc.line
      setSource f.source) := .step (.named rfl) fun _ => J.inert (.setSource _)
  split
  · exact .own (J.pure _) fun outer => hlast outer
  · exact .step (.plainSymbol _) fun outer => hlast outer

end Adhoc
