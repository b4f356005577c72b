import Adhoc.Proofs.Slips

namespace Adhoc

variable {v : Version} {logs : Bool} {u : Use} {lib : Library} {e : Sign} {n : Nat}

/-- What an expression is lowered for. -/
inductive Role
  | value
  /-- A value where `&x` is `x` itself. -/
  | referred
  /-- The operand of `&` in a plain value. -/
  | operand
  /-- What is assigned to, updated or referred to. -/
  | place
  | asStatic
  | asAttribute
  | param
deriving DecidableEq

namespace Role

/-- Whether the value is what counts. -/
def isValue : Role → Bool
  | .value | .referred | .operand => true
  | _ => false

/-- Whether an assignment defines a name, so that only its right side is lowered. -/
def defines : Role → Bool
  | .asStatic | .asAttribute | .param => true
  | _ => false

end Role

/-- A node with what it is lowered for. -/
inductive Use
  | expr (role : Role) (e : Expr)
  | stmt (s : Stmt)

namespace Node

def use : Node → Use
  | .stmt s => .stmt s
  | .expr e => .expr .value e

/-- The left side of a `foreach` loop. -/
def targetUse : Node → Use
  | .stmt s => .stmt s
  | .expr e => .expr .place e

end Node

/-- What an expression is lowered to in its own frame. -/
def Expr.uses (v : Version) (role : Role) : Expr → List Use
  | .ident .. | .literal .. | .path .. | .rest .. | .importName .. | .yield .. | .selfRef .. => []
  | .function _ r | .method _ r | .arrow _ r => r.params.map (.expr .param)
  | .call _ callee arguments =>
    if callee.ident? == some "call" then arguments.map (.expr .value)
    else .expr .value callee :: arguments.map (.expr .referred)
  | .unary _ op e =>
    [.expr (if op == .refer then if role = .referred then .place else .operand else .value) e]
  | .update _ _ _ e => [.expr (if role = .operand then .value else .place) e]
  | .binary _ _ left right | .logical _ _ left right | .element _ left right _
  | .selector _ left right => [.expr .value left, .expr .value right]
  | .array _ elements => (elements.filterMap id).map (.expr .value)
  | .map _ entries => entries.flatMap fun (key, value) => [.expr .value key, .expr .value value]
  | .attribute _ object _ _ => [.expr .value object]
  | .assign _ op left right =>
    if role.defines then [.expr .value right]
    else if op == .assign then
      if v.has .valueBeforePush then [.expr .value right, .expr .place left]
      else [.expr .place left, .expr .referred right]
    else [.expr .place left, .expr .value right]
  | .assignPattern _ _ right => [.expr .value right]
  | .arrayPattern _ es => es.map (.expr .place)
  | .conditional _ test consequent alternate =>
    [.expr .value test, .expr .referred consequent, .expr .value alternate]
  | .template _ quasis expressions => (expressions.take quasis.length).map (.expr .value)
  | .tagged _ es | .sequence _ es => es.map (.expr .value)
  | .staticDecl _ e => [.expr .asStatic e]
  | .attributeDecl _ e => [.expr .asAttribute e]
  | .classDef _ definition => definition.body.map .stmt
  | .await _ (.call ..) => []
  | .await _ e | .spread _ e => [.expr .value e]

/-- A returned assignment is followed by a read of its target. -/
def Expr.returnedUses : Expr → List Use
  | .assign loc op left right => [.expr .value (.assign loc op left right), .expr .value left]
  | e => [.expr .value e]

def Declarator.uses (d : Declarator) : List Use :=
  d.init.toList.map (.expr .referred) ++ d.id.toList.map (.expr .place)

/-- What a statement is lowered to in its own frame. -/
def Stmt.uses : Stmt → List Use
  | .classDef _ definition => definition.body.map .stmt
  | .function _ r => if r.id.isSome then r.params.map (.expr .param) else []
  | .method _ r => r.params.map (.expr .param)
  | .forLoop _ init test update body =>
    init.toList.map Node.use ++ test.toList.map (.expr .value) ++ [.stmt body] ++
      update.toList.map (.expr .value)
  | .foreach _ left right body => [.expr .value right, left.targetUse, .stmt body]
  | .whileLoop _ test body => [.expr .value test, .stmt body]
  | .doWhile _ body test => [.stmt body, .expr .value test]
  | .declare _ declarators => declarators.flatMap Declarator.uses
  | .returnValue _ argument => argument.toList.flatMap Expr.returnedUses
  | .ifElse _ test consequent alternate =>
    [.expr .value test, .stmt consequent] ++ alternate.toList.map .stmt
  | .block _ body => body.map .stmt
  | .switch _ discriminant cases =>
    .expr .value discriminant :: (cases.filterMap (·.test)).map (.expr .value) ++
      (cases.flatMap (·.consequent)).map .stmt
  | .labeled _ _ body => [.stmt body]
  | .expression _ e | .require _ e | .throw _ e | .finalizer _ e => [.expr .value e]
  | .tryCatch _ tried handler last =>
    .stmt tried :: (handler.toList.map fun h => .stmt h.body) ++ last.toList.map .stmt
  | .moduleConstructor _ id body => [.expr .value id, .stmt body]
  | .print _ arguments => arguments.map (.expr .value)
  | .importName .. | .continueLoop .. | .breakOut .. | .includeFile .. | .undef .. | .sourceFile ..
  | .delegate .. | .empty .. => []

/-- The version that a literal came with, unless it was always there. -/
def Literal.first? : Literal → Option Nat
  | .uint _ | .ulong _ | .double _ => some 12
  | .byte _ | .ubyte _ | .short _ | .ushort _ => some 13
  | _ => none

namespace Expr

def isOptional : Expr → Bool
  | .element _ _ _ optional | .attribute _ _ _ optional => optional
  | _ => false

/-- The version that an expression came with in its role, unless it was always there. -/
def first? (role : Role) : Expr → Option Nat
  | .map .. => some 11
  | .rest .. => some 12
  | .selfRef _ => some 7
  | .element _ _ _ optional | .attribute _ _ _ optional => if optional then some 12 else none
  | .logical _ op _ _ => if op == .coalesce then some 12 else none
  | .literal _ value => value.first?
  -- The default of a parameter or of an attribute.
  | .assign .. => if role = .param ∨ role = .asAttribute then some 7 else none
  | .assignPattern .. => if role = .param then some 7 else none
  | _ => none

end Expr

namespace Use

def part : Use → Part
  | .expr _ e => .expr e
  | .stmt s => .stmt s

def uses (v : Version) : Use → List Use
  | .expr role e => e.uses v role
  | .stmt s => s.uses

/-- The version that a construct came with, unless it was always there. -/
def first? : Use → Option Nat
  | .stmt (.foreach ..) => some 11
  | .stmt (.delegate ..) => some 12
  | .stmt _ => none
  | .expr role e => e.first? role

/-- Whether it is an optional member that is assigned to, updated or referred to. -/
def isOptionalPlace : Use → Bool
  | .expr role e => e.isOptional && role == .place
  | .stmt _ => false

theorem first?_of_isOptionalPlace (h : u.isOptionalPlace = true) : u.first? = some 12 := by
  cases u with
  | stmt s => cases h
  | expr role e =>
    rw [isOptionalPlace, Bool.and_eq_true] at h
    cases e with
    | element | «attribute» => simpa [first?, Expr.first?, Expr.isOptional] using h.1
    | _ => exact Bool.noConfusion h.1

/-- The version that is checked for where the construct is lowered. -/
def checked? (u : Use) : Option Nat := if u.isOptionalPlace then none else u.first?

/-- Whether it catches exceptions. -/
def isHandler : Use → Bool
  | .stmt (.tryCatch _ _ (some _) _) => true
  | _ => false

def isBlock : Use → Bool
  | .stmt (.block ..) => true
  | _ => false

/-- Whether it suspends the frame. -/
def isSuspension : Use → Bool
  | .expr _ (.yield _) | .expr _ (.await ..) => true
  | _ => false

end Use

section

variable (lib : Library) (v : Version)

/-- The second use is lowered where the first is, in its frame or in those of subroutines, or in an
included file. -/
inductive Lowers : Use → Use → Prop
  | here (u : Use) : Lowers u u
  | use {u w x : Use} : w ∈ u.uses v → Lowers w x → Lowers u x
  | body {u x : Use} {n : Node} : u.part.body? = some n → Lowers n.use x → Lowers u x
  | included {u x : Use} {path : String} {program : Program} {s : Stmt} :
    u.part.path? = some path → lib.Includes path program → s ∈ program.body →
    Lowers (.stmt s) x → Lowers u x

theorem lowers_iff {x : Use} : Lowers lib v u x ↔ x = u ∨ (∃ w ∈ u.uses v, Lowers lib v w x) ∨
    (∃ n, u.part.body? = some n ∧ Lowers lib v n.use x) ∨
    ∃ path program, u.part.path? = some path ∧ lib.Includes path program ∧
      ∃ s ∈ program.body, Lowers lib v (.stmt s) x := by
  constructor
  · intro h
    cases h with
    | here => exact .inl rfl
    | use hw h => exact .inr (.inl ⟨_, hw, h⟩)
    | body hn h => exact .inr (.inr (.inl ⟨_, hn, h⟩))
    | included hp hi hs h => exact .inr (.inr (.inr ⟨_, _, hp, hi, _, hs, h⟩))
  · rintro (rfl | ⟨w, hw, h⟩ | ⟨n, hn, h⟩ | ⟨path, program, hp, hi, s, hs, h⟩)
    · exact .here _
    · exact .use hw h
    · exact .body hn h
    · exact .included hp hi hs h

end

/-- What lowering says of the version. -/
inductive Sign
  /-- A check has passed that the version is not older. -/
  | since (first : Nat)
  /-- There is an operation that the version does not have. -/
  | foreign

/-- The signs of some lowering, for every folder that includes may be looked for in. -/
abbrev Signs := String → Set Sign

/-- The signs of a node apart from its parts. If exceptions are logged, every block is a handler. -/
def Use.signs (v : Version) (logs : Bool) (u : Use) : Set Sign :=
  {e | (∃ n, u.checked? = some n ∧ e = .since n) ∨
    e = .foreign ∧ (v.number < 10 ∧ (u.isHandler = true ∨ logs = true ∧ u.isBlock = true) ∨
      v.number < 11 ∧ u.isSuspension = true)}

namespace Use

theorem since_mem_signs : .since n ∈ u.signs v logs ↔ u.checked? = some n := by
  simp [signs]

theorem foreign_mem_signs : .foreign ∈ u.signs v logs ↔
    v.number < 10 ∧ (u.isHandler = true ∨ logs = true ∧ u.isBlock = true) ∨
      v.number < 11 ∧ u.isSuspension = true := by
  simp [signs]

end Use

namespace Signs

section

variable (lib : Library) (v : Version) (logs : Bool)

def of (u : Use) : Signs := fun f => {e | ∃ w, Lowers (lib.at f) v u w ∧ e ∈ w.signs v logs}

def all (us : List Use) : Signs := fun f => {e | ∃ u ∈ us, e ∈ of lib v logs u f}

end

variable {w : Use} {us ws : List Use} {D E : Signs} {f : String} {c : Prop}

theorem mem_sup : e ∈ (D ⊔ E) f ↔ e ∈ D f ∨ e ∈ E f := Iff.rfl

theorem notMem_bot : e ∉ (⊥ : Signs) f := fun h => h

@[simp] theorem all_nil : all lib v logs [] = ⊥ := by
  funext f
  exact Set.eq_empty_of_forall_notMem fun e he => by simp [all] at he

theorem all_append : all lib v logs (us ++ ws) = all lib v logs us ⊔ all lib v logs ws := by
  funext f
  ext e
  simp [all, or_and_right, exists_or]

theorem all_singleton : all lib v logs [u] = of lib v logs u := by
  funext f
  ext e
  simp [all]

theorem mem_of_iff : e ∈ of lib v logs u f ↔ e ∈ u.signs v logs ∨
    e ∈ all lib v logs (u.uses v) f ∨
    (∃ n, u.part.body? = some n ∧ e ∈ of lib v logs n.use f) ∨
    ∃ path program, u.part.path? = some path ∧ (lib.at f).Includes path program ∧
      e ∈ all lib v logs (program.body.map .stmt) f := by
  simp only [of, all, Set.mem_ofPred_eq, List.mem_map, exists_exists_and_eq_and]
  constructor
  · rintro ⟨x, hx, he⟩
    rcases (lowers_iff _ _).1 hx with
      rfl | ⟨w, hw, h⟩ | ⟨n, hn, h⟩ | ⟨path, program, hp, hi, s, hs, h⟩
    · exact .inl he
    · exact .inr (.inl ⟨w, hw, x, h, he⟩)
    · exact .inr (.inr (.inl ⟨n, hn, x, h, he⟩))
    · exact .inr (.inr (.inr ⟨path, program, hp, hi, s, hs, x, h, he⟩))
  · rintro (he | ⟨w, hw, x, h, he⟩ | ⟨n, hn, x, h, he⟩ | ⟨path, program, hp, hi, s, hs, x, h, he⟩)
    · exact ⟨u, .here _, he⟩
    · exact ⟨x, .use hw h, he⟩
    · exact ⟨x, .body hn h, he⟩
    · exact ⟨x, .included hp hi hs h, he⟩

theorem of_inner (hbody : u.part.body? = none) (hpath : u.part.path? = none) :
    of lib v logs u = (fun _ => u.signs v logs) ⊔ all lib v logs (u.uses v) := by
  funext f
  ext e
  rw [mem_of_iff, mem_sup]
  simp [hbody, hpath]

theorem of_body {n : Node} (hbody : u.part.body? = some n) (hpath : u.part.path? = none) :
    of lib v logs u =
      (fun _ => u.signs v logs) ⊔ (all lib v logs (u.uses v) ⊔ of lib v logs n.use) := by
  funext f
  ext e
  rw [mem_of_iff, mem_sup, mem_sup]
  simp [hbody, hpath]

theorem of_congr (hpart : u.part = w.part) (hsigns : u.signs v logs = w.signs v logs)
    (huses : u.uses v = w.uses v) : of lib v logs u = of lib v logs w := by
  funext f
  ext e
  rw [mem_of_iff, mem_of_iff, hpart, hsigns, huses]

/-- An operation that the version lacks, if the condition holds. -/
def foreign (c : Prop) : Signs := fun _ => {e | e = .foreign ∧ c}

theorem mem_foreign : .foreign ∈ foreign c f ↔ c := and_iff_right rfl

theorem foreign_of_not (h : ¬ c) : foreign c = ⊥ := by
  funext f
  exact Set.eq_empty_of_forall_notMem fun e he => h he.2

end Signs

namespace Use

/-- Whether the node is lowered to operations of fixed versions, or to a frame or file of its own. -/
def isApart (u : Use) : Bool :=
  u.part.body?.isSome || u.part.path?.isSome || u.isHandler || u.isBlock || u.isSuspension

/-- Whether the node has only the signs of its parts. -/
def isQuiet (u : Use) : Bool := !u.isApart && u.checked?.isNone

/-- The version that a node is checked for if it has no other signs of its own. -/
def gate? (u : Use) : Option Nat := if u.isApart then none else u.checked?

theorem signs_of_unchecked (h : u.checked? = none) : (fun _ => u.signs v logs) =
    Signs.foreign (v.number < 10 ∧ (u.isHandler = true ∨ logs = true ∧ u.isBlock = true) ∨
      v.number < 11 ∧ u.isSuspension = true) := by
  funext f
  ext e
  simp [signs, Signs.foreign, h]

theorem signs_of_not_isApart (v : Version) (logs : Bool) (h : u.isApart = false) :
    u.signs v logs = {e | ∃ n, u.checked? = some n ∧ e = .since n} := by
  simp only [isApart, Bool.or_eq_false_iff] at h
  obtain ⟨⟨⟨⟨-, -⟩, hhandler⟩, hblock⟩, hsuspension⟩ := h
  ext e
  simp [signs, hhandler, hblock, hsuspension]

end Use

namespace Signs

theorem of_not_isApart (h : u.isApart = false) : of lib v logs u =
    (fun _ => {e | ∃ n, u.checked? = some n ∧ e = .since n}) ⊔ all lib v logs (u.uses v) := by
  rw [← Use.signs_of_not_isApart v logs h]
  simp only [Use.isApart, Bool.or_eq_false_iff, Option.isSome_eq_false_iff,
    Option.isNone_iff_eq_none] at h
  exact of_inner h.1.1.1.1 h.1.1.1.2

theorem of_quiet (h : u.isQuiet = true) : of lib v logs u = all lib v logs (u.uses v) := by
  simp only [Use.isQuiet, Bool.and_eq_true, Bool.not_eq_true', Option.isNone_iff_eq_none] at h
  rw [of_not_isApart h.1, h.2]
  simp only [reduceCtorEq, false_and, exists_false, Set.ofPred_false]
  exact bot_sup_eq _

theorem of_gate (h : u.gate? = some n) :
    of lib v logs u = (fun _ => {.since n}) ⊔ all lib v logs (u.uses v) := by
  unfold Use.gate? at h
  split at h
  · cases h
  · rename_i hapart
    rw [of_not_isApart (Bool.eq_false_iff.2 hapart), h]
    simp only [Option.some.injEq, exists_eq_left']
    rfl

theorem mem_of_include {loc : Loc} {path f : String} {program : Program}
    (h : (lib.at f).Includes path program) : e ∈ of lib v logs (.stmt (.includeFile loc path)) f ↔
      e ∈ all lib v logs (program.body.map .stmt) f := by
  have hsigns : e ∉ Use.signs v logs (.stmt (.includeFile loc path)) := by
    simp [Use.signs, Use.checked?, Use.first?, Use.isHandler, Use.isBlock, Use.isSuspension]
  rw [mem_of_iff, or_iff_right hsigns, show Use.uses v _ = [] from rfl, all_nil,
    or_iff_right notMem_bot, or_iff_right (fun ⟨n, hn, _⟩ => nomatch hn)]
  constructor
  · rintro ⟨path', program', hpath, h', he⟩
    obtain rfl := Option.some.inj hpath
    rwa [Library.Includes.eq h' h rfl]
  · exact fun he => ⟨path, program, rfl, h, he⟩

end Signs

end Adhoc
