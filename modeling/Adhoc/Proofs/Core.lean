import Adhoc.Proofs.Values

namespace Adhoc

open List

/-- What a plain assignment can assign to. -/
def Expr.isTarget : Expr → Bool
  | .ident .. | .attribute .. | .element .. => true
  | _ => false

/-- The operators that compute a value from a value. -/
def UnaryOp.isArithmetic : UnaryOp → Bool
  | .not | .minus | .plus | .invert => true
  | .follow | .refer => false

section

-- If `wide` is true, exceptions may be caught, members may be optional, and a function may be an
-- arrow or have an expression as its body.
variable (wide : Prop)

mutual

inductive CoreExpr : Expr → Prop
  | literal (loc : Loc) (value : Literal) : CoreExpr (.literal loc value)
  | ident (loc : Loc) (name : String) : CoreExpr (.ident loc name)
  | unary (loc : Loc) {op : UnaryOp} {e : Expr} : op.isArithmetic = true → CoreExpr e →
    CoreExpr (.unary loc op e)
  | binary (loc : Loc) (op : BinaryOp) {a b : Expr} : CoreExpr a → CoreExpr b →
    CoreExpr (.binary loc op a b)
  | logical (loc : Loc) {op : LogicalOp} {a b : Expr} : op ≠ .coalesce → CoreExpr a → CoreExpr b →
    CoreExpr (.logical loc op a b)
  | conditional (loc : Loc) {test a b : Expr} : CoreExpr test → CoreExpr a → CoreExpr b →
    CoreExpr (.conditional loc test a b)
  | array (loc : Loc) {es : List Expr} : (∀ e ∈ es, CoreExpr e) → CoreExpr (.array loc (es.map some))
  | attribute (loc : Loc) {object : Expr} (property : Expr) {optional : Bool} :
    (optional = true → wide) → CoreExpr object → CoreExpr (.attribute loc object property optional)
  | element (loc : Loc) {object property : Expr} {optional : Bool} : (optional = true → wide) →
    CoreExpr object → CoreExpr property → CoreExpr (.element loc object property optional)
  | call (loc : Loc) {callee : Expr} {arguments : List Expr} : callee.ident? ≠ some "call" →
    CoreExpr callee → (∀ e ∈ arguments, CoreExpr e) → CoreExpr (.call loc callee arguments)
  | function (loc : Loc) {params : List Expr} {body : Node} :
    (∀ e ∈ params, e.ident?.isSome = true) → CoreBody body →
    CoreExpr (.function loc ⟨none, params, body⟩)
  | arrow (loc : Loc) {id : Option Expr} {params : List Expr} {body : Node} : wide →
    (∀ e ∈ params, e.ident?.isSome = true) → CoreBody body →
    CoreExpr (.arrow loc ⟨id, params, body⟩)

/-- The body of a function. -/
inductive CoreBody : Node → Prop
  | block (loc : Loc) {body : List Stmt} : (∀ s ∈ body, CoreStmt s) →
    CoreBody (.stmt (.block loc body))
  | expr {e : Expr} : wide → CoreExpr e → CoreBody (.expr e)

/-- What may be the update of a `for` loop. An assignment is also a statement. -/
inductive CoreUpdate : Expr → Prop
  | assign (loc : Loc) {left right : Expr} : left.isTarget = true → CoreExpr left → CoreExpr right →
    CoreUpdate (.assign loc .assign left right)
  | step (loc : Loc) (op : UpdateOp) (before : Bool) (place : Loc) (name : String) :
    CoreUpdate (.update loc op before (.ident place name))
  | call {loc : Loc} {callee : Expr} {arguments : List Expr} : CoreExpr (.call loc callee arguments) →
    CoreUpdate (.call loc callee arguments)

inductive CoreStmt : Stmt → Prop
  | declare (loc : Loc) {ds : List Declarator} :
    (∀ d ∈ ds, ∃ place name, d.id = some (.ident place name)) →
    (∀ d ∈ ds, ∀ e, d.init = some e → CoreExpr e) → CoreStmt (.declare loc ds)
  | expression (loc : Loc) {e : Expr} : CoreExpr e → CoreStmt (.expression loc e)
  | assignment (loc : Loc) {place : Loc} {left right : Expr} :
    CoreUpdate (.assign place .assign left right) →
    CoreStmt (.expression loc (.assign place .assign left right))
  | block (loc : Loc) {body : List Stmt} : (∀ s ∈ body, CoreStmt s) → CoreStmt (.block loc body)
  | ifElse (loc : Loc) {test : Expr} {consequent : Stmt} {alternate : Option Stmt} : CoreExpr test →
    CoreStmt consequent → (∀ s, alternate = some s → CoreStmt s) →
    CoreStmt (.ifElse loc test consequent alternate)
  | whileLoop (loc : Loc) {test : Expr} {body : Stmt} : CoreExpr test → CoreStmt body →
    CoreStmt (.whileLoop loc test body)
  | doWhile (loc : Loc) {body : Stmt} {test : Expr} : CoreStmt body → CoreExpr test →
    CoreStmt (.doWhile loc body test)
  | forLoop (loc : Loc) {init : Option Node} {test update : Option Expr} {body : Stmt} :
    (∀ n, init = some n → ∃ place ds, n = .stmt (.declare place ds)) →
    (∀ s, init = some (.stmt s) → CoreStmt s) → (∀ e, test = some e → CoreExpr e) →
    (∀ e, update = some e → CoreUpdate e) → CoreStmt body →
    CoreStmt (.forLoop loc init test update body)
  | switch (loc : Loc) {discriminant : Expr} {cases : List SwitchCase} : CoreExpr discriminant →
    (∀ c ∈ cases, ∀ e, c.test = some e → CoreExpr e) →
    (∀ c ∈ cases, ∀ s ∈ c.consequent, CoreStmt s) → CoreStmt (.switch loc discriminant cases)
  | labeled (loc : Loc) (label : String) {s : Stmt} : CoreStmt s → CoreStmt (.labeled loc label s)
  | breakOut (loc : Loc) (label : Option String) : CoreStmt (.breakOut loc label)
  | continueLoop (loc : Loc) (label : Option String) : CoreStmt (.continueLoop loc label)
  | returnValue (loc : Loc) {argument : Option Expr} : (∀ e, argument = some e → CoreExpr e) →
    CoreStmt (.returnValue loc argument)
  | throw (loc : Loc) {e : Expr} : CoreExpr e → CoreStmt (.throw loc e)
  | function (loc : Loc) {id : Expr} {params : List Expr} {body : Node} :
    (∀ e ∈ params, e.ident?.isSome = true) → CoreBody body →
    CoreStmt (.function loc ⟨some id, params, body⟩)
  | tryCatch (loc : Loc) {tried : Stmt} {handler : Option CatchClause} {last : Option Stmt} : wide →
    CoreStmt tried → (∀ c, handler = some c → CoreStmt c.body) → (∀ s, last = some s → CoreStmt s) →
    CoreStmt (.tryCatch loc tried handler last)

end

/-- A program in the core language. -/
def Program.Core (p : Program) : Prop := ∀ s ∈ p.body, CoreStmt wide s

def Part.Core : Part → Prop
  | .expr e => CoreExpr wide e ∨ CoreUpdate wide e
  | .stmt s => CoreStmt wide s

end

section

variable {wide : Prop} {e : Expr} {es : List Expr} {s : Stmt} {n : Node} {p q : Part} {v : Version}

theorem CoreExpr.gains (h : CoreExpr wide e) : e.gain = 1 ∧ e.keptGain = 1 ∧ e.returnedGain = 1 := by
  cases h with
  | call _ hname => exact ⟨if_neg hname, if_neg hname, if_neg hname⟩
  | _ => exact ⟨rfl, rfl, rfl⟩

theorem CoreExpr.gain (h : CoreExpr wide e) : e.gain = 1 := h.gains.1

theorem CoreExpr.keptGain (h : CoreExpr wide e) : e.keptGain = 1 := h.gains.2.1

theorem CoreExpr.returnedGain (h : CoreExpr wide e) : e.returnedGain = 1 := h.gains.2.2

theorem CoreExpr.leavesValue (h : CoreExpr wide e) : Emit.leavesValue e = true := by
  cases h <;> rfl

theorem CoreExpr.of_name (h : e.ident?.isSome = true) : CoreExpr wide e := by
  cases e <;> first | exact .ident _ _ | cases h

theorem CoreBody.gain (h : CoreBody wide n) (he : n = .expr e) : e.gain = 1 := by
  subst he
  cases h with
  | expr _ h => exact h.gain

theorem CoreBody.core (h : CoreBody wide n) : n.part.Core wide := by
  cases h with
  | block loc h => exact .block loc h
  | expr _ h => exact .inl h

theorem CoreExpr.fit (h : CoreExpr wide e) (v : Version) (nested : Prop) : e.Fit v nested := by
  cases h with
  | literal | ident => trivial
  | unary _ _ h | «attribute» _ _ _ h => exact h.gain
  | binary _ _ ha hb | logical _ _ ha hb => exact ⟨ha.keptGain, hb.gain⟩
  | conditional _ ht ha hb => exact ⟨ht.gain, ha.gain, hb.gain⟩
  | array _ h =>
    exact fun e he => (h e (by simpa using he)).gain
  | element _ _ ha hb => exact ⟨ha.gain, hb.gain⟩
  | call _ _ hc ha => exact ⟨fun _ => hc.gain, fun e he => (ha e he).gain⟩
  | function _ _ h | arrow _ _ _ h => exact fun _ _ he => h.gain he

theorem CoreUpdate.fit (h : CoreUpdate wide e) (v : Version) (nested : Prop) : e.Fit v nested := by
  cases h with
  | assign _ _ _ hr =>
    refine ⟨?_, .inl rfl⟩
    split
    · exact hr.gain
    · exact hr.keptGain
  | step => rfl
  | call h => exact h.fit v nested

theorem CoreUpdate.fitStep (h : CoreUpdate wide e) : e.FitStep := by
  cases h with
  | assign => exact fun hl => nomatch hl
  | step => exact fun _ => rfl
  | call h => exact fun _ => h.gain

theorem CoreStmt.fit (h : CoreStmt wide s) : s.Fit := by
  cases h with
  | declare _ hid hinit =>
    refine fun d hd => ⟨fun e he => (hinit d hd e he).keptGain, fun e he hp => ?_⟩
    obtain ⟨place, name, hname⟩ := hid d hd
    cases hname.symm.trans he
    cases hp
  | expression _ h => exact fun _ => h.gain
  | assignment _ h => exact h.fitStep
  | ifElse _ h | whileLoop _ h | doWhile _ _ h => exact h.keptGain
  | forLoop _ hi _ ht hu =>
    refine ⟨fun e he => ?_, fun e he => (ht e he).keptGain, fun e he => (hu e he).fitStep⟩
    obtain ⟨place, ds, hn⟩ := hi _ he
    cases hn
  | switch _ h ht => exact ⟨h.gain, fun c hc e he => (ht c hc e he).gain⟩
  | returnValue _ h => exact fun e he => (h e he).returnedGain
  | throw _ h => exact h.gain
  | _ => trivial

theorem Part.core_names (h : ∀ e ∈ es, e.ident?.isSome = true) :
    ∀ q ∈ es.map Part.expr, q.Core wide := by
  rw [forall_mem_map]
  exact fun e he => .inl (.of_name (h e he))

theorem Part.core_pair {a b : Expr} (ha : CoreExpr wide a) (hb : CoreExpr wide b) :
    ∀ q ∈ [Part.expr a, .expr b], q.Core wide :=
  forall_mem_cons.2 ⟨.inl ha, forall_mem_singleton.2 (.inl hb)⟩

theorem CoreExpr.parts (h : CoreExpr wide e) : ∀ q ∈ e.parts v, q.Core wide := by
  cases h with
  | literal | ident => exact fun _ hq => nomatch hq
  | unary _ _ h | «attribute» _ _ _ h => exact forall_mem_singleton.2 (.inl h)
  | binary _ _ ha hb | logical _ _ ha hb | element _ _ ha hb => exact Part.core_pair ha hb
  | conditional _ ht ha hb => exact forall_mem_cons.2 ⟨.inl ht, Part.core_pair ha hb⟩
  | array _ h =>
    simp only [Expr.parts, filterMap_map, Function.comp_def, id, filterMap_some,
      forall_mem_map]
    exact fun e he => .inl (h e he)
  | call _ _ hc ha =>
    rw [Expr.parts, forall_mem_cons, forall_mem_map]
    exact ⟨.inl hc, fun e he => .inl (ha e he)⟩
  | function _ hp | arrow _ _ hp => exact Part.core_names hp

theorem CoreUpdate.parts (h : CoreUpdate wide e) : ∀ q ∈ e.parts v, q.Core wide := by
  cases h with
  | assign _ _ hl hr =>
    simp only [Expr.parts]
    split
    · exact Part.core_pair hr hl
    · exact Part.core_pair hl hr
  | step _ _ _ place name => exact forall_mem_singleton.2 (.inl (.ident place name))
  | call h => exact h.parts

theorem CoreStmt.parts (h : CoreStmt wide s) : ∀ q ∈ s.parts v, q.Core wide := by
  cases h with
  | declare _ hid hinit =>
    simp only [Stmt.parts, mem_flatMap]
    rintro q ⟨d, hd, hq⟩
    have hparts : q ∈ d.id.toList.map Part.expr ∨ q ∈ d.init.toList.map Part.expr := by
      unfold Declarator.parts at hq
      split at hq
      · exact (mem_append.1 hq).symm
      · exact mem_append.1 hq
    simp only [mem_map, Option.mem_toList] at hparts
    rcases hparts with ⟨e, he, rfl⟩ | ⟨e, he, rfl⟩
    · obtain ⟨place, name, hname⟩ := hid d hd
      cases hname.symm.trans he
      exact .inl (.ident place name)
    · exact .inl (hinit d hd e he)
  | expression _ h | throw _ h => exact forall_mem_singleton.2 (.inl h)
  | assignment _ h => exact forall_mem_singleton.2 (.inr h)
  | block _ h => exact forall_mem_map.2 h
  | ifElse _ ht hc ha =>
    rw [Stmt.parts, forall_mem_append, forall_mem_cons, forall_mem_singleton,
      forall_mem_map]
    exact ⟨⟨.inl ht, hc⟩, fun s hs => ha s (Option.mem_toList.1 hs)⟩
  | whileLoop _ ht hb => exact forall_mem_cons.2 ⟨.inl ht, forall_mem_singleton.2 hb⟩
  | doWhile _ hb ht => exact forall_mem_cons.2 ⟨hb, forall_mem_singleton.2 (.inl ht)⟩
  | forLoop _ hn hi ht hu hb =>
    simp only [Stmt.parts, forall_mem_append, forall_mem_singleton, forall_mem_map,
      Option.mem_toList]
    refine ⟨⟨⟨fun n hinit => ?_, fun e he => .inl (ht e he)⟩, hb⟩, fun e he => .inr (hu e he)⟩
    obtain ⟨place, ds, rfl⟩ := hn n hinit
    exact hi _ hinit
  | switch _ h ht hs =>
    simp only [Stmt.parts, forall_mem_append, forall_mem_cons, forall_mem_map,
      mem_filterMap, mem_flatMap]
    exact ⟨⟨.inl h, fun e ⟨c, hc, he⟩ => .inl (ht c hc e he)⟩, fun s ⟨c, hc, hs'⟩ => hs c hc s hs'⟩
  | labeled _ _ h => exact forall_mem_singleton.2 h
  | breakOut | continueLoop => exact fun _ hq => nomatch hq
  | returnValue _ h =>
    simp only [Stmt.parts, mem_flatMap, Option.mem_toList]
    rintro q ⟨e, he, hq⟩
    have hcore := h e he
    cases hcore <;> cases mem_singleton.1 hq <;> exact .inl (h _ he)
  | function _ hp => exact Part.core_names hp
  | tryCatch _ _ ht hh hl =>
    simp only [Stmt.parts, forall_mem_append, forall_mem_cons, forall_mem_map,
      Option.mem_toList]
    exact ⟨⟨ht, hh⟩, hl⟩

namespace Part.Core

theorem fit (h : p.Core wide) (v : Version) (nested : Prop) : p.Fit v nested := by
  cases p with
  | expr e => exact h.elim (fun h => h.fit v nested) fun h => h.fit v nested
  | stmt s => exact CoreStmt.fit h

theorem part (h : p.Core wide) (hq : q ∈ p.parts v) : q.Core wide := by
  cases p with
  | expr e => exact h.elim (fun h => h.parts q hq) fun h => h.parts q hq
  | stmt s => exact CoreStmt.parts h q hq

theorem body (h : p.Core wide) (hp : p.body? = some n) : n.part.Core wide := by
  cases p with
  | expr e =>
    rcases h with h | h
    · cases h <;> cases hp <;> exact CoreBody.core ‹_›
    · cases h <;> cases hp
  | stmt s =>
    cases h <;> cases hp
    exact CoreBody.core ‹_›

theorem occurs {lib : Library} {nested : Prop} (h : p.Core wide) (ho : Occurs lib v nested p q) :
    q.Core wide := by
  induction ho with
  | here p => exact h
  | part hq _ ih => exact ih (h.part hq)
  | body _ hp _ ih => exact ih (h.body hp)
  | included => cases h

theorem proper (h : p.Core wide) (lib : Library) (v : Version) (nested : Prop) :
    p.Proper lib v nested := fun _ ho => (h.occurs ho).fit v nested

end Part.Core

end

end Adhoc
