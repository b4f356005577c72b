import Adhoc.Proofs.Run
import Mathlib.Data.List.Forall2

namespace Adhoc

open List Array

section

-- A mark of the source `x` may have the lines `line` and `line'` if `marks line line' x` holds.
variable (marks : UInt32 → UInt32 → Symbol → Prop)

mutual

inductive Operation.Like : Operation → Operation → Prop
  | same (op : Operation) : Operation.Like op op
  | subroutine {name : Option Symbol} {frame frame' : Frame} {isMethod : Bool} :
    Frame.Like frame frame' →
    Operation.Like (.subroutine name frame isMethod) (.subroutine name frame' isMethod)

inductive Instruction.Like : Instruction → Instruction → Prop
  | same {line : UInt32} {op op' : Operation} : Operation.Like op op' →
    Instruction.Like ⟨line, op⟩ ⟨line, op'⟩
  | mark {line line' : UInt32} {x : Symbol} : marks line line' x →
    Instruction.Like ⟨line, .named .sourceFile x⟩ ⟨line', .named .sourceFile x⟩

inductive Frame.Like : Frame → Frame → Prop
  | mk {header : FrameHeader} {code code' : List Instruction} : CodeLike code code' →
    Frame.Like ⟨header, code⟩ ⟨header, code'⟩

inductive CodeLike : List Instruction → List Instruction → Prop
  | nil : CodeLike [] []
  | cons {ins ins' : Instruction} {code code' : List Instruction} : Instruction.Like ins ins' →
    CodeLike code code' → CodeLike (ins :: code) (ins' :: code')

end

end

variable {α β : Type} {marks : UInt32 → UInt32 → Symbol → Prop} {xs : List α} {ys : List β}

theorem codeLike_iff {code code' : List Instruction} :
    CodeLike marks code code' ↔ Forall₂ (Instruction.Like marks) code code' := by
  constructor
  · intro h
    induction code generalizing code' with
    | nil =>
      cases h
      exact .nil
    | cons ins code ih =>
      cases h with
      | cons hins hcode => exact .cons hins (ih hcode)
  · intro h
    induction h with
    | nil => exact .nil
    | cons hins _ ih => exact .cons hins ih

/-- A relation of instructions that lowering keeps. Equal operations are related, if the relation is
exact on equal lines, and so are subroutines whose code is related; jumps get related targets. -/
structure Matching (exact : Prop) (R : Instruction → Instruction → Prop) : Prop where
  same {line line' : UInt32} (op : Operation) : (exact → line = line') → R ⟨line, op⟩ ⟨line', op⟩
  subroutine {line line' : UInt32} {name : Option Symbol} {header : FrameHeader}
    {code code' : List Instruction} {isMethod : Bool} : (exact → line = line') →
    Forall₂ R code code' →
    R ⟨line, .subroutine name ⟨header, code⟩ isMethod⟩ ⟨line', .subroutine name ⟨header, code'⟩ isMethod⟩
  target {ins ins' : Instruction} (target : Nat) : R ins ins' →
    Option.Rel (fun op op' => R ⟨ins.line, op⟩ ⟨ins'.line, op'⟩) (ins.operation.withTarget? target)
      (ins'.operation.withTarget? target)

theorem rel_self {R : α → α → Prop} (h : ∀ a, R a a) : ∀ o : Option α, Option.Rel R o o
  | none => .none
  | some a => .some (h a)

theorem Instruction.Like.matching : Matching True (Instruction.Like marks) where
  same op h := by
    obtain rfl := h trivial
    exact .same (.same op)
  subroutine h hcode := by
    obtain rfl := h trivial
    exact .same (.subroutine (.mk (codeLike_iff.2 hcode)))
  target target h := by
    cases h with
    | same h =>
      cases h with
      | same => exact rel_self (fun op => .same (.same op)) _
      | subroutine => exact .none
    | mark => exact .none

theorem Matching.eq : Matching True (@Eq Instruction) where
  same op h := by rw [h trivial]
  subroutine h hcode := by
    rw [forall₂_eq_eq_eq] at hcode
    rw [h trivial, hcode]
  target target h := by
    subst h
    refine rel_self (fun op => ?_) _
    rfl

variable {exact : Prop} {R : Instruction → Instruction → Prop}

/-- The drafts differ in their code alone, and their code is related. -/
def Draft.Like (R : Instruction → Instruction → Prop) (d d' : Draft) : Prop :=
  ∃ code, d' = { d with code := code } ∧ Forall₂ R d.code.toList code.toList

theorem Draft.Like.refl (hR : Matching exact R) (d : Draft) : d.Like R d :=
  ⟨d.code, rfl, forall₂_same.2 fun ⟨_, op⟩ _ => hR.same op fun _ => rfl⟩

theorem Draft.Like.size_eq {d d' : Draft} (h : d.Like R d') : d.code.size = d'.code.size := by
  obtain ⟨code, rfl, hcode⟩ := h
  simpa using hcode.length_eq

theorem Draft.Like.push {d d' : Draft} {ins ins' : Instruction} (h : d.Like R d') (hins : R ins ins')
    (depth : Depth) :
    Draft.Like R (d.write ins depth) (d'.write ins' depth) := by
  obtain ⟨code, rfl, hcode⟩ := h
  refine ⟨code.push ins', rfl, ?_⟩
  rw [toList_push, toList_push]
  exact rel_append hcode (.cons hins .nil)

/-- A step that neither reads nor writes the code and the source of the draft. -/
def Drafting.Blind {α : Type} (step : Drafting α) : Prop :=
  ∀ d code source, step { d with code := code, source := source } =
    (step d).map fun r => (r.1, { r.2 with code := code, source := source })

namespace Drafting.Blind

variable {step : Drafting α} {a : α}

theorem source_eq (h : step.Blind) {d e : Draft} (hstep : step d = .ok (a, e)) :
    e.source = d.source := by
  have heq := h d d.code d.source
  rw [hstep] at heq
  simp only [Except.map, Except.ok.injEq, Prod.mk.injEq, true_and] at heq
  rw [heq]

theorem code_eq (h : step.Blind) {d e : Draft} (hstep : step d = .ok (a, e)) : e.code = d.code := by
  have heq := h d d.code d.source
  rw [hstep] at heq
  simp only [Except.map, Except.ok.injEq, Prod.mk.injEq, true_and] at heq
  rw [heq]

theorem like (h : step.Blind) {d d' e : Draft} (hd : d.Like R d') (hstep : step d = .ok (a, e)) :
    ∃ e', step d' = .ok (a, e') ∧ e.Like R e' := by
  obtain ⟨code, rfl, hcode⟩ := hd
  have hself := h d d.code d.source
  rw [hstep] at hself
  simp only [Except.map, Except.ok.injEq, Prod.mk.injEq, true_and] at hself
  have hother := h d code d.source
  rw [hstep] at hother
  refine ⟨_, hother, code, ?_, ?_⟩
  · rw [hself]
  · rw [hself]
    exact hcode

theorem error (h : step.Blind) {d d' : Draft} {x : Defect} (hd : d.Like R d')
    (hstep : step d = .error x) : step d' = .error x := by
  obtain ⟨code, rfl, -⟩ := hd
  rw [h d code d.source, hstep]
  rfl

end Drafting.Blind

namespace Draft

theorem dropDepth_blind (n : Int) : (dropDepth n).Blind := fun _ _ _ => rfl

theorem pushScope_blind (kind : ScopeKind) : (pushScope kind).Blind := fun _ _ _ => rfl

theorem addStatics_blind (symbols : List (Option Symbol)) : (addStatics symbols).Blind :=
  fun _ _ _ => rfl

theorem popScope_blind : popScope.Blind := by
  intro d code source
  unfold popScope
  cases d.scopes <;> rfl

theorem scope_blind : scope.Blind := by
  intro d code source
  unfold scope
  cases h : d.scopes <;> simp [Except.map, ← h]

theorem updateScope_blind (f : Scope → α × Scope) : (updateScope f).Blind := by
  intro d code source
  unfold updateScope
  cases d.scopes <;> rfl

theorem noted_blind (label : Option String) (jump : Nat) :
    (noteBreak label jump).Blind ∧ (noteContinue label jump).Blind := by
  constructor <;> intro d code source <;> simp only [noteBreak, noteContinue] <;>
    cases updateFirst _ _ d.scopes <;> rfl

theorem addMember_blind (symbol : Symbol) : (addMember symbol).Blind := by
  intro d code source
  unfold addMember
  cases d.scopes <;> rfl

theorem localIndex_blind (symbol : Symbol) : (localIndex symbol).Blind := by
  intro d code source
  unfold localIndex
  cases d.slots.localIndex? symbol <;> rfl

theorem useLocal_blind (symbol : Symbol) : (useLocal symbol).Blind := by
  intro d code source
  unfold useLocal
  dsimp only
  split
  · cases d.scopes <;> rfl
  · rfl

theorem useStatic_blind (symbol : Symbol) : (useStatic symbol).Blind := by
  intro d code source
  unfold useStatic
  dsimp only
  split
  · cases d.scopes <;> rfl
  · rfl

theorem capture_blind (symbol : Symbol) : (capture symbol).Blind := by
  intro d code source
  unfold capture
  dsimp only
  split <;> rfl

theorem resolve_blind (symbol : Symbol) (access : Access) : (resolve symbol access).Blind := by
  intro d code source
  have hcaptures : captures { d with code := code, source := source } symbol = d.captures symbol := rfl
  have hlocal := useLocal_blind symbol d code source
  have hstatic := useStatic_blind symbol d code source
  have hcapture := capture_blind symbol d code source
  cases access with
  | declare => exact hlocal
  | writeStatic => exact hstatic
  | readStatic =>
    simp only [resolve, hcaptures]
    split
    · exact hcapture
    · exact hstatic
  | write | read =>
    simp only [resolve, hcaptures]
    split
    · exact hcapture
    · split
      · exact hlocal
      · exact hstatic

theorem addParameter_source {symbol : Symbol} {d e : Draft}
    (h : addParameter symbol d = .ok ((), e)) : e.source = d.source := by
  obtain ⟨i, huse⟩ := addParameter_uses h
  have hsource := (useLocal_blind symbol).source_eq huse
  exact hsource

end Draft

theorem rel_getElem? {R : α → β → Prop} (h : Forall₂ R xs ys) (i : Nat) :
    Option.Rel R xs[i]? ys[i]? := by
  induction h generalizing i with
  | nil => exact .none
  | cons hxy _ ih =>
    cases i with
    | zero => exact .some hxy
    | succ i => exact ih i

theorem rel_set {R : α → β → Prop} (h : Forall₂ R xs ys) (i : Nat) {x : α} {y : β}
    (hxy : R x y) : Forall₂ R (xs.set i x) (ys.set i y) := by
  induction h generalizing i with
  | nil => exact .nil
  | cons hx hxs ih =>
    cases i with
    | zero => exact .cons hxy hxs
    | succ i => exact .cons hx (ih i)

theorem Draft.Like.patch (hR : Matching exact R) {d d' : Draft} (h : d.Like R d')
    (index target : Nat) :
    (∃ x, Draft.patch index target d = .error x ∧ Draft.patch index target d' = .error x) ∨
    ∃ e e', Draft.patch index target d = .ok ((), e) ∧ Draft.patch index target d' = .ok ((), e') ∧
      e.Like R e' ∧ e.source = d.source := by
  obtain ⟨code, rfl, hcode⟩ := h
  have hrel : Option.Rel R d.code[index]? code[index]? := by
    rw [← getElem?_toList, ← getElem?_toList]
    exact rel_getElem? hcode index
  unfold Draft.patch
  dsimp only
  generalize d.code[index]? = ins at hrel
  generalize code[index]? = ins' at hrel
  cases hrel with
  | none => exact .inl ⟨_, rfl, rfl⟩
  | @some ins ins' hins =>
    have htarget := hR.target target hins
    dsimp only
    generalize ins.operation.withTarget? target = op at htarget
    generalize ins'.operation.withTarget? target = op' at htarget
    cases htarget with
    | none => exact .inl ⟨_, rfl, rfl⟩
    | some hop =>
      refine .inr ⟨_, _, rfl, rfl, ⟨_, rfl, ?_⟩, rfl⟩
      rw [toList_setIfInBounds, toList_setIfInBounds]
      exact rel_set hcode index hop

end Adhoc
