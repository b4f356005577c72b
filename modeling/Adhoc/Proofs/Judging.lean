import Adhoc.Proofs.Run
import Adhoc.Proofs.TreeInduction
import Adhoc.Proofs.Uses

namespace Adhoc

open Emit

/-- The first and the last version that has the operation. -/
def Opcode.span : Opcode → Nat × Nat
  | .pop | .assign | .setState => (10, 13)
  | .popOld | .assignOld | .setStateOld => (1, 9)
  | .assignPop | .voidConst | .leave | .listAssign | .arrayConst | .arrayPush | .logicalAnd
  | .logicalOr | .mapConst | .mapInsert => (11, 13)
  | .listAssignOld | .arrayConstOld | .logicalAndOld | .logicalOrOld => (1, 10)
  | .binaryAssign => (5, 13)
  | .elementPush | .elementEval | .boolConst | .uintConst | .ulongConst | .doubleConst
  | .logicalOptional | .jumpIfNil | .delegateDefine => (12, 13)
  | .byteConst | .ubyteConst | .shortConst | .ushortConst => (13, 13)
  -- These can be named, but no version has them.
  | .callOld | .mapConstOld | .codeEval => (1, 0)
  | _ => (1, 13)

namespace Operation

/-- The versions that have the operation; none has one that was not verified. -/
def span : Operation → Nat × Nat
  | .unverified _ => (1, 0)
  | op => op.opcode.span

def isAdmitted (v : Version) (op : Operation) : Bool := op.span.1 ≤ v.number && v.number ≤ op.span.2

variable {v : Version} {op : Operation} {c : Capability}

theorem isAdmitted_of_always (h : op.span = (1, 13)) : op.isAdmitted v = true := by
  simpa [isAdmitted, h] using v.supported

/-- An operation that came with a capability. -/
theorem isAdmitted_of_has (hc : v.has c = true) (h : op.span = c.span) :
    op.isAdmitted v = true := by
  rw [isAdmitted, h]
  exact hc

theorem isAdmitted_of_lacks (hc : ¬ v.has c = true) (h : op.span = (1, c.span.1 - 1))
    (hlast : c.span.2 = 13) : op.isAdmitted v = true := by
  rw [Version.has_iff hlast] at hc
  have := v.supported
  simp [isAdmitted, h]
  omega

theorem isAdmitted_eq_false_iff {first : Nat} (op : Operation) (h : op.span = (first, 13)) :
    op.isAdmitted v = false ↔ v.number < first := by
  simp [isAdmitted, h, v.supported.2]

end Operation

/-- Whether the operation only works on values of the stack, and is no call. -/
def Operation.isBare : Operation → Bool
  | .simple op => op != .logicalOptional
  | .counted op _ => op != .call && op != .vaCall
  | .constant _ | .listAssign .. => true
  | _ => false

/-- The name that an element of a pattern binds. -/
def Expr.elementName? : Expr → Option String
  | .ident _ name => some name
  | .rest _ argument => argument.ident?
  | _ => none

/-- The names that an expression binds where it is declared. -/
def Expr.bound : Expr → List String
  | .ident _ name => [name]
  | .arrayPattern _ elements => elements.filterMap Expr.elementName?
  | _ => []

/-- Actions that look up one symbol. -/
inductive Emit.Lookup : Emit Symbol → Prop
  | symbol (name : String) : Lookup (symbol name)
  | string (content : String) (bytePerChar : Bool) : Lookup (stringSymbol content bytePerChar)
  | operator (internal : Bool) (text : String) : Lookup (operatorSymbol internal text)

theorem Emit.Lookup.neutral {x : Emit Symbol} (h : Lookup x) : Neutral x := by
  cases h with
  | symbol => exact .symbol _
  | string => exact .stringSymbol _ _
  | operator => exact .operatorSymbol _ _

theorem Emit.require_bind {α : Type} {P : Emit α → Prop} {c : Bool} {loc : Loc} {cause : Cause}
    {x : Emit α} (hreject : P (reject loc cause)) (hx : c = true → P x) :
    P (require c loc cause >>= fun _ => x) := by
  cases c with
  | false => exact hreject
  | true => exact hx rfl

/-- Whether the part itself has no calls, and binds and defines no names. -/
def Part.isMute : Part → Bool
  | .expr (.call ..) | .expr (.attribute ..) | .expr (.staticDecl ..) | .expr (.attributeDecl ..)
  | .stmt (.delegate ..) => false
  | .expr (.binary _ op _ _) => op != .instanceOf
  | .expr (.assignPattern _ e _) | .expr (.rest _ e) => e.ident?.isSome
  | _ => true

/-- The members that the part defines itself. -/
def Part.members : Part → List String
  | .expr (.staticDecl _ (.ident _ name)) | .expr (.attributeDecl _ (.ident _ name))
  | .expr (.staticDecl _ (.assign _ _ (.ident _ name) _))
  | .expr (.attributeDecl _ (.assign _ _ (.ident _ name) _))
  | .stmt (.delegate _ (.ident _ name)) => [name]
  | .expr (.function _ r) | .stmt (.function _ r) | .stmt (.method _ r) =>
    (r.id.bind Expr.ident?).toList
  | _ => []

/-- Whether the part declares a static or an attribute. -/
def Part.isMember : Part → Bool
  | .expr (.staticDecl ..) | .expr (.attributeDecl ..) => true
  | _ => false

/-- Whether the node stands in one frame and file with its parts, and has no scope of its own. The
left side of an assignment that defines a name is not lowered, so it has to be that name. -/
def Use.isInline : Use → Bool
  | .expr role (.assign _ _ left _) => !role.defines || left.ident?.isSome
  | .expr _ (.function ..) | .expr _ (.method ..) | .expr _ (.arrow ..) | .expr _ (.classDef ..)
  | .expr _ (.yield ..) | .expr _ (.await ..) | .expr _ (.selfRef ..) => false
  | .expr .. => true
  | .stmt (.returnValue ..) | .stmt (.importName ..) | .stmt (.expression ..) | .stmt (.require ..)
  | .stmt (.throw ..) | .stmt (.undef ..) | .stmt (.moduleConstructor ..) | .stmt (.print ..)
  | .stmt (.delegate ..) | .stmt (.empty ..) => true
  | .stmt _ => false

/-- Whether the statement needs no scope around it: nothing in it is at the top of a frame. -/
def Stmt.isClosed : Stmt → Bool
  | .block .. | .continueLoop .. | .breakOut .. => true
  | _ => false

theorem Expr.returnedUses_part (e : Expr) : e.returnedUses.map Use.part = e.returnedParts := by
  cases e <;> rfl

attribute [simp] Use.part

theorem Use.map_part_exprs (role : Role) (es : List Expr) :
    (es.map (.expr role)).map part = es.map Part.expr := by
  rw [List.map_map]
  rfl

theorem Use.map_part_stmts (ss : List Stmt) : (ss.map .stmt).map part = ss.map Part.stmt := by
  rw [List.map_map]
  rfl

theorem Node.part_use (n : Node) : n.use.part = n.part := by cases n <;> rfl

theorem Use.parts_eq (v : Version) {u : Use} (hu : u.isInline = true) :
    u.part.parts v = (u.uses v).map part ∨ ∃ e name, e.ident? = some name ∧
      (u.part.parts v = .expr e :: (u.uses v).map part ∨
        u.part.parts v = (u.uses v).map part ++ [.expr e]) := by
  have hmap (role : Role) (es : List Expr) := (map_part_exprs role es).symm
  cases u with
  | expr role e =>
    cases e
    case call loc callee arguments =>
      simp only [Use.part, Part.parts, Expr.parts, Use.uses, Expr.uses]
      split
      · rename_i hname
        exact .inr ⟨callee, "call", by simpa using hname, .inl (congrArg _ (hmap _ _))⟩
      · exact .inl (congrArg _ (hmap _ _))
    case assign loc op left right =>
      simp only [Use.part, Part.parts, Expr.parts, Use.uses, Expr.uses]
      cases hrole : role.defines with
      | false => cases op == .assign <;> cases v.has .valueBeforePush <;> exact .inl rfl
      | true =>
        obtain ⟨name, hname⟩ : ∃ name, left.ident? = some name := by
          simpa [isInline, hrole, Option.isSome_iff_exists] using hu
        refine .inr ⟨left, name, hname, ?_⟩
        cases op == .assign <;> cases v.has .valueBeforePush <;> first | exact .inl rfl | exact .inr rfl
    case map loc entries =>
      simp only [Use.part, Part.parts, Expr.parts, Use.uses, Expr.uses, List.map_flatMap]
      exact .inl rfl
    case array | arrayPattern | template | tagged | sequence => exact .inl (hmap _ _)
    all_goals first | exact .inl rfl | cases hu
  | stmt s =>
    cases s
    case returnValue loc argument =>
      refine .inl ?_
      simp only [Use.part, Part.parts, Stmt.parts, Use.uses, Stmt.uses, List.map_flatMap,
        Expr.returnedUses_part]
    case print loc arguments => exact .inl (hmap _ _)
    all_goals first | exact .inl rfl | cases hu

/-- A property of actions, with an index for what they lower. -/
structure Judgment (v : Version) where
  Index : Type
  zero : Index
  add : Index → Index → Index
  zero_add (a : Index) : add zero a = a
  add_zero (a : Index) : add a zero = a
  add_assoc (a b c : Index) : add (add a b) c = add a (add b c)
  Holds {α : Type} : Index → Emit α → Prop
  /-- The same of an action that makes a parameter of the draft of a subroutine. -/
  Readies : Index → (Draft → Emit Draft) → Prop
  /-- Uses, one after the other. -/
  all : List Use → Index
  all_nil : all [] = zero
  all_append (us ws : List Use) : all (us ++ ws) = add (all us) (all ws)
  /-- What a node is or does apart from its parts. -/
  own : Part → Index
  own_mute {u : Use} : u.isInline = true → u.part.isMute = true → own u.part = zero
  own_comm (p : Part) (a : Index) : add (own p) a = add a (own p)
  /-- A check that the version is not older. -/
  since : Option Nat → Index
  since_none : since none = zero
  /-- Names that are declared, if anything is. -/
  bound : Bool → List String → Index
  bound_false (names : List String) : bound false names = zero
  bound_nil (declares : Bool) : bound declares [] = zero
  bound_append (declares : Bool) (names others : List String) :
    bound declares (names ++ others) = add (bound declares names) (bound declares others)
  bound_comm (declares : Bool) (names : List String) (a : Index) :
    add (bound declares names) a = add a (bound declares names)
  /-- Only `&` tells a reference from a value. -/
  all_referred {e : Expr} : (∀ loc a, e ≠ .unary loc .refer a) →
    all [.expr .referred e] = all [.expr .value e]
  /-- What can be a target behind `&` or `*` is the same in every value. -/
  all_behind {role : Role} {e : Expr} : role.isValue = true → (match e with
    | .ident .. | .attribute .. | .path .. | .element .. => True
    | _ => False) → all [.expr role e] = all [.expr .value e]
  all_refer (loc : Loc) (e : Expr) :
    all [.expr .place (.unary loc .refer e)] = all [.expr .value (.unary loc .refer e)]
  -- Actions of several steps.
  pure {α : Type} (a : α) : Holds zero (Pure.pure a : Emit α)
  bind {α β : Type} {a b : Index} {x : Emit α} {f : α → Emit β} : Holds a x →
    (∀ r, Holds b (f r)) → Holds (add a b) (x >>= f)
  reject {α : Type} {a : Index} {loc : Loc} {cause : Cause} : Holds a (reject loc cause : Emit α)
  discard {α : Type} {a : Index} {x : Emit α} : Holds a x → Holds a (Functor.discard x)
  checked {α : Type} {a : Index} {c : Capability} {n : Nat} {loc : Loc} {cause : Cause} {x : Emit α} :
    c.span = (n, 13) → (v.has c = true → Holds a x) →
    Holds (add (since (some n)) a) (require (v.has c) loc cause >>= fun _ => x)
  -- Nodes.
  node {α : Type} {u : Use} {x : Emit α} : u.isInline = true →
    Holds (add (since u.checked?) (add (own u.part) (all (u.uses v)))) x → Holds (all [u]) x
  named {α : Type} {role : Role} {e : Expr} {name : String} {x : Emit α} : e.ident? = some name →
    Holds (all [.expr role e]) x → Holds zero x
  -- Steps.
  emit {op : Operation} {line : UInt32} : op.isBare = true → op.isAdmitted v = true →
    Holds zero (emit v op line)
  lookedFor {α : Type} {a : Index} {x : Emit Symbol} {op : Named} {line : UInt32} {y : Emit α} :
    Lookup x → op ≠ .delegateDefine → (∀ s, Operation.isAdmitted v (.named op s) = true) → Holds a y →
    Holds a (x >>= fun s => Emit.emit v (.named op s) line >>= fun _ => y)
  identifier (loc : Loc) (name : String) : Holds zero (identifier v loc name)
  member (reach : Reach) (parts : List String) (loc : Loc) : Holds zero (member v reach parts loc)
  pushName (name : String) (loc : Loc) (declares : Bool) :
    Holds (bound declares [name]) (pushName v name loc declares)
  declareName (name : String) : Holds (bound true [name]) (declareName name)
  -- Members and calls.
  optionalElement {a : Index} {line : UInt32} {x : Emit Unit} : v.has .optionalChaining = true →
    Holds a x → Holds a (do
      Emit.emit v (.simple .logicalOptional) line
      x
      Emit.emit v (.simple .elementEval) 0
      warn .optional)
  optionalAttribute {a : Index} {line : UInt32} {x : Emit Unit} : v.has .optionalChaining = true →
    Holds a x → Holds a (do
      Emit.emit v (.simple .logicalOptional) line
      warn .optional
      x)
  attributeEval (loc : Loc) (object property : Expr) (optional : Bool) (line : UInt32) :
    Holds (own (.expr (.attribute loc object property optional))) (do
      let names ← attributeNames property
      Emit.emit v (.pathed .attributeEval names) line)
  attributePush {property : Expr} {name : String} (loc : Loc) (object : Expr) (optional : Bool)
    (line : UInt32) : property.ident? = some name →
    Holds (own (.expr (.attribute loc object property optional))) (do
      let symbol ← symbol name
      Emit.emit v (.pathed .attributePush [symbol]) line)
  call (loc : Loc) (callee : Expr) (arguments : List Expr) (n : Nat) (line : UInt32) :
    Holds (own (.expr (.call loc callee arguments))) (Emit.emit v (.counted .call n) line)
  variadicCall (loc : Loc) (callee : Expr) (arguments : List Expr) (n : Nat) (line : UInt32) :
    Holds (own (.expr (.call loc callee arguments))) (do
      Emit.emit v (.counted .vaCall n) line
      warn .variadicCall)
  instanceOf {a : Index} {x : Emit Unit} (loc : Loc) (left right : Expr) (line : UInt32) :
    Holds a x → Holds (add (own (.expr (.binary loc .instanceOf left right))) a) (do
      let method ← symbol "isInstanceOf"
      Emit.emit v (.pathed .attributeEval [method]) line
      x
      Emit.emit v (.counted .call 1) line)
  -- Definitions.
  define {p : Part} {name : String} {op : Named} {kind : MemberKind} {line : UInt32}
    (check : Symbol → Bool → Emit Unit) : p.isMember = true → p.members = [name] →
    op.opcode.span = (1, 13) → (∀ s isNew, Holds zero (check s isNew)) → Holds (own p) (do
      let symbol ← symbol name
      Emit.emit v (.named op symbol) line
      let isNew ← Emit.define kind symbol
      check symbol isNew
      addMember symbol)
  -- Patterns.
  arrayPattern {α : Type} {x : Emit α} {declares : Bool} {es : List Expr} (loc : Loc) :
    Holds (add (bound declares (es.filterMap Expr.elementName?)) (all (es.map (.expr .place)))) x →
    Holds (add (bound declares (Expr.arrayPattern loc es).bound)
      (all [.expr .place (.arrayPattern loc es)])) x
  -- Parameters.
  noParameter {a : Index} (loc : Loc) (cause : Cause) : Readies a fun _ => Emit.reject loc cause
  declaredParameter {a : Index} {x : Emit Unit} (name : String) (isRest : Bool) : Holds a x →
    Readies a fun child => do
      let child ← declareParameter name child
      x
      Pure.pure (if isRest then { child with hasRest := true } else child)
  checkedParameter {a : Index} {c : Capability} {n : Nat} {loc : Loc} {cause : Cause}
    {f : Draft → Emit Draft} : c.span = (n, 13) → Readies a f →
    Readies (add (since (some n)) a) fun child => require (v.has c) loc cause >>= fun _ => f child
  parameterNode {u : Use} {f : Draft → Emit Draft} : u.isInline = true →
    Readies (add (since u.checked?) (add (own u.part) (all (u.uses v)))) f → Readies (all [u]) f

end Adhoc
