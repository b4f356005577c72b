import Adhoc.Proofs.Layout
import Mathlib.Algebra.Order.BigOperators.Group.List
import Mathlib.Algebra.Order.Monoid.Unbundled.WithTop
import Mathlib.Algebra.Order.Ring.Nat

namespace Adhoc

open List

/-- A node where it stands in a tree. -/
structure Occurrence where
  part : Part
  /-- The number of returned assignments whose targets it stands in. -/
  targets : Nat := 0
  /-- Whether it is lowered at all. -/
  isRead : Bool := true

namespace Occurrence

/-- The node in the target of a returned assignment. -/
def inTarget (o : Occurrence) : Occurrence := { o with targets := o.targets + 1 }

/-- How often the node is lowered. -/
def copies (o : Occurrence) : Nat := if o.isRead then 2 ^ o.targets else 0

end Occurrence

/-- The nodes in what is not lowered. -/
def unread (os : List Occurrence) : List Occurrence := os.map fun o => { o with isRead := false }

mutual

/-- The expression and all nodes in it. Paths and imports are made of names. -/
def Expr.nodes (e : Expr) : List Occurrence :=
  { part := .expr e } :: match e with
  | .ident .. | .literal .. | .yield .. | .selfRef .. => []
  | .function _ r | .method _ r | .arrow _ r => r.nodes
  | .call _ callee arguments => callee.nodes ++ exprsNodes arguments
  | .unary _ _ a | .update _ _ _ a | .rest _ a | .staticDecl _ a | .attributeDecl _ a
  | .await _ a | .spread _ a => a.nodes
  | .binary _ _ a b | .logical _ _ a b | .element _ a b _ | .attribute _ a b _ | .selector _ a b
  | .assign _ _ a b | .assignPattern _ a b => a.nodes ++ b.nodes
  | .array _ elements => holesNodes elements
  | .map _ entries => pairsNodes entries
  | .path _ a b => unread (a.nodes ++ b.nodes)
  | .importName _ es _ _ => unread (exprsNodes es)
  | .template _ quasis es => quotedNodes quasis.length es
  | .arrayPattern _ es | .tagged _ es | .sequence _ es => exprsNodes es
  | .conditional _ a b c => a.nodes ++ (b.nodes ++ c.nodes)
  | .classDef _ d => d.nodes

def exprsNodes : List Expr → List Occurrence
  | [] => []
  | e :: es => e.nodes ++ exprsNodes es

/-- The nodes in the expressions of a template, which are read as far as there are quasis. -/
def quotedNodes : Nat → List Expr → List Occurrence
  | _, [] => []
  | 0, e :: es => unread e.nodes ++ quotedNodes 0 es
  | n + 1, e :: es => e.nodes ++ quotedNodes n es

def holeNodes : Option Expr → List Occurrence
  | none => []
  | some e => e.nodes

def holesNodes : List (Option Expr) → List Occurrence
  | [] => []
  | e :: es => holeNodes e ++ holesNodes es

def pairNodes : Expr × Expr → List Occurrence
  | (a, b) => a.nodes ++ b.nodes

def pairsNodes : List (Expr × Expr) → List Occurrence
  | [] => []
  | p :: ps => pairNodes p ++ pairsNodes ps

def Routine.nodes : Routine → List Occurrence
  | ⟨id, params, body⟩ => unread (holeNodes id) ++ (exprsNodes params ++ body.nodes)

def ClassDef.nodes : ClassDef → List Occurrence
  | ⟨id, superClass, body, _⟩ => unread (id.nodes ++ holeNodes superClass) ++ stmtsNodes body

def Node.nodes : Node → List Occurrence
  | .stmt s => s.nodes
  | .expr e => e.nodes

def nodeHoleNodes : Option Node → List Occurrence
  | none => []
  | some n => n.nodes

def Declarator.nodes : Declarator → List Occurrence
  | ⟨_, id, init⟩ => holeNodes id ++ holeNodes init

def declaratorsNodes : List Declarator → List Occurrence
  | [] => []
  | d :: ds => d.nodes ++ declaratorsNodes ds

def SwitchCase.nodes : SwitchCase → List Occurrence
  | ⟨_, test, consequent⟩ => holeNodes test ++ stmtsNodes consequent

def casesNodes : List SwitchCase → List Occurrence
  | [] => []
  | c :: cs => c.nodes ++ casesNodes cs

def CatchClause.nodes : CatchClause → List Occurrence
  | ⟨_, param, body⟩ => holeNodes param ++ body.nodes

def clauseHoleNodes : Option CatchClause → List Occurrence
  | none => []
  | some c => c.nodes

/-- The nodes of what is returned. -/
def returnedNodes : Option Expr → List Occurrence
  | none => []
  | some (.assign loc op left right) =>
    { part := .expr (.assign loc op left right) } :: (left.nodes.map .inTarget ++ right.nodes)
  | some e => e.nodes

/-- The statement and all nodes in it. A function without a name is passed over. -/
def Stmt.nodes (s : Stmt) : List Occurrence :=
  { part := .stmt s } :: match s with
  | .classDef _ d => d.nodes
  | .function _ r => if r.id.isSome then r.nodes else unread r.nodes
  | .method _ r => r.nodes
  | .forLoop _ init test update body =>
    nodeHoleNodes init ++ (holeNodes test ++ (body.nodes ++ holeNodes update))
  | .foreach _ left right body => right.nodes ++ (left.nodes ++ body.nodes)
  | .whileLoop _ test body => test.nodes ++ body.nodes
  | .doWhile _ body test => body.nodes ++ test.nodes
  | .declare _ ds => declaratorsNodes ds
  | .returnValue _ a => returnedNodes a
  | .ifElse _ test c a => test.nodes ++ (c.nodes ++ stmtHoleNodes a)
  | .block _ body => stmtsNodes body
  | .expression _ e | .require _ e | .throw _ e | .finalizer _ e | .delegate _ e => e.nodes
  | .switch _ e cases => e.nodes ++ casesNodes cases
  | .labeled _ _ s => s.nodes
  | .tryCatch _ b handler f => b.nodes ++ (clauseHoleNodes handler ++ stmtHoleNodes f)
  | .moduleConstructor _ e s => e.nodes ++ s.nodes
  | .print _ es => exprsNodes es
  | .importName _ es _ _ => unread (exprsNodes es)
  | .continueLoop .. | .breakOut .. | .includeFile .. | .undef .. | .sourceFile .. | .empty .. => []

def stmtsNodes : List Stmt → List Occurrence
  | [] => []
  | s :: ss => s.nodes ++ stmtsNodes ss

def stmtHoleNodes : Option Stmt → List Occurrence
  | none => []
  | some s => s.nodes

end

def Program.nodes (p : Program) : List Occurrence := stmtsNodes p.body

namespace Part

def nodes : Part → List Occurrence
  | .expr e => e.nodes
  | .stmt s => s.nodes

/-- The calls that a node stands for itself. -/
def ownCalls : Part → Nat
  | .expr (.call ..) | .expr (.binary _ .instanceOf _ _) => 1
  | .expr (.await ..) => 2
  | _ => 0

/-- Whether the calls of a node are left open: those of an include, and of a block whose exceptions
are logged. -/
def isOpen (logs : Bool) : Part → Bool
  | .stmt (.includeFile ..) => true
  | .stmt (.block ..) => logs
  | _ => false

/-- The names in a part, as expressions, and its body if that has a frame of its own. -/
def others : Part → List Part
  | .expr (.rest _ e) | .expr (.attribute _ _ e _) | .expr (.assignPattern _ e _)
  | .stmt (.delegate _ e) => [.expr e]
  | .stmt (.tryCatch _ _ (some c) _) => c.param.toList.map .expr
  | p => p.body?.toList.map Node.part

end Part

/-- The calls that nodes stand for if each is lowered once. -/
def writtenCalls (os : List Occurrence) : Nat := (os.map fun o => o.part.ownCalls).sum

/-- The calls that nodes stand for if each is lowered as often as it is. -/
def loweredCalls (os : List Occurrence) : Nat := (os.map fun o => o.copies * o.part.ownCalls).sum

section

variable {os os' : List Occurrence} {o : Occurrence}

/-- A call that is read is lowered at least once. -/
theorem writtenCalls_le (h : ∀ o ∈ os, o.part.ownCalls ≠ 0 → o.isRead = true) :
    writtenCalls os ≤ loweredCalls os := by
  refine sum_le_sum fun o ho => ?_
  by_cases hcalls : o.part.ownCalls = 0
  · simp [hcalls]
  · rw [Occurrence.copies, if_pos (h o ho hcalls)]
    exact Nat.le_mul_of_pos_left _ (Nat.two_pow_pos _)

theorem loweredCalls_eq_iff (h : ∀ o ∈ os, o.part.ownCalls ≠ 0 → o.isRead = true) :
    loweredCalls os = writtenCalls os ↔ ∀ o ∈ os, o.part.ownCalls ≠ 0 → o.targets = 0 := by
  induction os with
  | nil => simp [loweredCalls, writtenCalls]
  | cons o os ih =>
    rw [forall_mem_cons] at h
    have hrest := writtenCalls_le h.2
    have hwritten : writtenCalls (o :: os) = o.part.ownCalls + writtenCalls os := sum_cons
    have hlowered : loweredCalls (o :: os) = o.copies * o.part.ownCalls + loweredCalls os :=
      sum_cons
    rw [hlowered, hwritten, forall_mem_cons, ← ih h.2]
    by_cases hcalls : o.part.ownCalls = 0
    · simp [hcalls]
    -- The two sums differ in the first node already if it has more than one copy.
    · have hcopies : o.copies = 2 ^ o.targets := if_pos (h.1 hcalls)
      have hpos := Nat.two_pow_pos o.targets
      have hle : o.part.ownCalls ≤ 2 ^ o.targets * o.part.ownCalls := Nat.le_mul_of_pos_left _ hpos
      have hone : 2 ^ o.targets * o.part.ownCalls = o.part.ownCalls ↔ o.targets = 0 := by
        rw [Nat.mul_eq_right hcalls, Nat.pow_eq_one]
        simp
      rw [hcopies, ← hone]
      constructor
      · exact fun heq => ⟨fun _ => by omega, by omega⟩
      · rintro ⟨hfirst, hsecond⟩
        rw [hfirst hcalls, hsecond]

end

section

variable (logs : Bool)

/-- The calls that the node brings to the code, if they are not left open. -/
def Occurrence.calls (o : Occurrence) : WithTop ℕ :=
  if o.isRead && o.part.isOpen logs then ⊤ else (o.copies * o.part.ownCalls : ℕ)

/-- The calls that the nodes bring to the code. -/
def callsOf (os : List Occurrence) : WithTop ℕ := (os.map (Occurrence.calls logs)).sum

def Part.calls (p : Part) : WithTop ℕ := callsOf logs p.nodes

/-- The calls of a part apart from those of its parts in the same frame. -/
def Part.aside (p : Part) : WithTop ℕ :=
  Occurrence.calls logs { part := p } + (p.others.map (Part.calls logs)).sum

end

section

variable {logs : Bool} {os os' : List Occurrence} {o : Occurrence}

@[simp] theorem callsOf_nil : callsOf logs [] = 0 := rfl

@[simp] theorem callsOf_cons : callsOf logs (o :: os) = o.calls logs + callsOf logs os := sum_cons

@[simp] theorem callsOf_append : callsOf logs (os ++ os') = callsOf logs os + callsOf logs os' := by
  simp [callsOf]

@[simp] theorem callsOf_unread : callsOf logs (unread os) = 0 := by
  induction os with
  | nil => rfl
  | cons o os ih => simpa [unread, Occurrence.calls, Occurrence.copies] using ih

@[simp] theorem callsOf_inTarget :
    callsOf logs (os.map .inTarget) = callsOf logs os + callsOf logs os := by
  induction os with
  | nil => rfl
  | cons o os ih =>
    have ho : o.inTarget.calls logs = o.calls logs + o.calls logs := by
      unfold Occurrence.calls Occurrence.copies Occurrence.inTarget
      cases o.isRead <;> cases o.part.isOpen logs <;>
        simp [Nat.pow_succ', Nat.two_mul, Nat.add_mul]
    rw [map_cons, callsOf_cons, callsOf_cons, ih, ho, add_add_add_comm]

theorem callsOf_eq (h : ∀ o ∈ os, o.part.isOpen logs = false) :
    callsOf logs os = loweredCalls os := by
  induction os with
  | nil => rfl
  | cons o os ih =>
    rw [forall_mem_cons] at h
    rw [callsOf_cons, ih h.2, Occurrence.calls, h.1, Bool.and_false]
    exact (WithTop.coe_add _ _).symm

@[simp] theorem Part.calls_expr (e : Expr) : (Part.expr e).calls logs = callsOf logs e.nodes := rfl

theorem Expr.calls_of_ident {e : Expr} {name : String} (h : e.ident? = some name) :
    (Part.expr e).calls logs = 0 := by
  obtain ⟨loc, rfl⟩ := Expr.exists_of_ident? h
  rfl

@[simp] theorem Part.calls_stmt (s : Stmt) : (Part.stmt s).calls logs = callsOf logs s.nodes := rfl

@[simp] theorem Node.calls_part (n : Node) : n.part.calls logs = callsOf logs n.nodes := by
  cases n <;> rfl

@[simp] theorem callsOf_exprs (es : List Expr) :
    callsOf logs (exprsNodes es) = (es.map fun e => callsOf logs e.nodes).sum := by
  induction es with
  | nil => rfl
  | cons e es ih => simp [exprsNodes, ih]

@[simp] theorem callsOf_hole (o : Option Expr) :
    callsOf logs (holeNodes o) = (o.toList.map fun e => callsOf logs e.nodes).sum := by
  cases o <;> simp [holeNodes]

@[simp] theorem callsOf_stmtHole (o : Option Stmt) :
    callsOf logs (stmtHoleNodes o) = (o.toList.map fun e => callsOf logs e.nodes).sum := by
  cases o <;> simp [stmtHoleNodes]

@[simp] theorem callsOf_stmts (ss : List Stmt) :
    callsOf logs (stmtsNodes ss) = (ss.map fun s => callsOf logs s.nodes).sum := by
  induction ss with
  | nil => rfl
  | cons s ss ih => simp [stmtsNodes, ih]

@[simp] theorem callsOf_quoted (n : Nat) (es : List Expr) :
    callsOf logs (quotedNodes n es) = ((es.take n).map fun e => callsOf logs e.nodes).sum := by
  induction es generalizing n with
  | nil => simp [quotedNodes]
  | cons e es ih => cases n <;> simp [quotedNodes, ih]

@[simp] theorem callsOf_holes (es : List (Option Expr)) :
    callsOf logs (holesNodes es) = ((es.filterMap id).map fun e => callsOf logs e.nodes).sum := by
  induction es with
  | nil => rfl
  | cons e es ih => cases e <;> simp [holesNodes, ih]

@[simp] theorem callsOf_pairs (es : List (Expr × Expr)) : callsOf logs (pairsNodes es) =
    ((es.flatMap fun p => [Part.expr p.1, .expr p.2]).map (Part.calls logs)).sum := by
  induction es with
  | nil => rfl
  | cons p es ih =>
    obtain ⟨a, b⟩ := p
    simp [pairsNodes, pairNodes, ih]

@[simp] theorem callsOf_routine (r : Routine) : callsOf logs r.nodes =
    (r.params.map fun e => callsOf logs e.nodes).sum + callsOf logs r.body.nodes := by
  obtain ⟨id, params, body⟩ := r
  simp [Routine.nodes]

@[simp] theorem callsOf_class (d : ClassDef) :
    callsOf logs d.nodes = (d.body.map fun s => callsOf logs s.nodes).sum := by
  obtain ⟨id, superClass, body, isModule⟩ := d
  simp [ClassDef.nodes]

theorem callsOf_declarators (v : Version) (ds : List Declarator) :
    callsOf logs (declaratorsNodes ds) =
      ((ds.flatMap (Declarator.parts v)).map (Part.calls logs)).sum := by
  induction ds with
  | nil => rfl
  | cons d ds ih =>
    obtain ⟨loc, id, init⟩ := d
    simp only [declaratorsNodes, Declarator.nodes, Declarator.parts, callsOf_append, ih, flatMap_cons]
    split <;> simp [Function.comp_def, add_assoc, add_left_comm]

@[simp] theorem callsOf_cases (cs : List SwitchCase) : callsOf logs (casesNodes cs) =
    ((cs.filterMap (·.test)).map fun e => callsOf logs e.nodes).sum +
      ((cs.flatMap (·.consequent)).map fun s => callsOf logs s.nodes).sum := by
  induction cs with
  | nil => rfl
  | cons c cs ih =>
    obtain ⟨loc, test, consequent⟩ := c
    cases test <;> simp [casesNodes, SwitchCase.nodes, ih, add_assoc, add_left_comm]

@[simp] theorem callsOf_returned (a : Option Expr) : callsOf logs (returnedNodes a) =
    ((a.toList.flatMap Expr.returnedParts).map (Part.calls logs)).sum := by
  cases a with
  | none => rfl
  | some e =>
    cases e <;> simp [returnedNodes, Expr.returnedParts]
    simp [Expr.nodes, add_assoc, add_comm]

theorem Part.aside_eq {p q : Part} (h : p.others = [q])
    (hp : Occurrence.calls logs { part := p } = 0) : p.aside logs = q.calls logs := by
  simp [aside, h, hp]

/-- Apart from its parts in the same frame, a part has the calls of its node and of its body. -/
theorem Part.calls_eq (logs : Bool) (v : Version) (p : Part) :
    p.calls logs = p.aside logs + ((p.parts v).map (Part.calls logs)).sum := by
  rcases p with e | s
  · cases e
    case await loc e =>
      cases e <;> simp [aside, others, body?, parts, Expr.nodes, Expr.parts, Node.nodes]
    case assign loc op left right =>
      rw [parts, Expr.parts]
      split <;> simp [aside, others, body?, Expr.nodes, add_comm]
    all_goals
      simp [aside, others, body?, parts, Expr.nodes, Expr.parts, Function.comp_def, add_assoc,
        add_comm, add_left_comm]
  · cases s
    case function loc r =>
      cases h : r.id <;>
        simp [aside, others, body?, parts, Stmt.nodes, Stmt.parts, h, Function.comp_def, add_assoc,
          add_comm, add_left_comm]
    case tryCatch loc tried handler last =>
      rcases handler with _ | ⟨hloc, param, body⟩ <;>
        simp [aside, others, body?, parts, Stmt.nodes, Stmt.parts, clauseHoleNodes,
          CatchClause.nodes, Function.comp_def, add_assoc, add_left_comm]
    case forLoop loc init test update body =>
      cases init <;>
        simp [aside, others, body?, parts, Stmt.nodes, Stmt.parts, nodeHoleNodes, Function.comp_def]
    all_goals
      simp [aside, others, body?, parts, Stmt.nodes, Stmt.parts, callsOf_declarators v,
        Function.comp_def, add_assoc, add_comm, add_left_comm]

end

end Adhoc
