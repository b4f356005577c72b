import Adhoc.Proofs.Growth
import Adhoc.Proofs.Straight
import Mathlib.Logic.Relation

namespace Adhoc

variable {op : Operation} {v : Version} {moves : List Move}

/-- Whether the operation gives control back to the caller. -/
def Operation.isReturn : Operation → Bool
  | .setState .return | .setStateOld .return => true
  | _ => false

/-- What the operation does to the depth if the next instruction follows it. Nothing follows a jump
that is always taken, a `throw` or a return. -/
def Operation.onward? (v : Version) : Operation → Option (List Move)
  | .jump .always _ | .simple .throw | .setState .return | .setStateOld .return => none
  | op => (op.effect v).toOption

theorem Operation.effect_of_onward? (h : op.onward? v = some moves) : op.effect v = .ok moves := by
  unfold onward? at h
  split at h
  iterate 4 cases h
  cases he : op.effect v with
  | error e =>
    rw [he] at h
    cases h
  | ok moves' =>
    rw [he] at h
    cases h
    rfl

/-- What a jump does to the depth if it is taken. The new logical operators then leave the value that
they look at. -/
def Jump.aside : Jump → List Move
  | .and | .or => [.pop 1, .push 1]
  | kind => kind.effect

/-- One step through a frame, as far as the depth of the stack goes. -/
inductive Frame.Step (v : Version) (f : Frame) : Nat × Int → Nat × Int → Prop
  | onward {i : Nat} {d : Int} {ins : Instruction} {moves : List Move} : f.code[i]? = some ins →
    ins.operation.onward? v = some moves → Step v f (i, d) (i + 1, d + net moves)
  | aside {i t : Nat} {d : Int} {line : UInt32} {kind : Jump} :
    f.code[i]? = some ⟨line, .jump kind (some t)⟩ → Step v f (i, d) (t, d + net kind.aside)

/-- Some path from the start of the frame leads to the instruction at `i` with the depth `d`. -/
def Frame.Reached (v : Version) (f : Frame) (i : Nat) (d : Int) : Prop :=
  Relation.ReflTransGen (f.Step v) (0, 0) (i, d)

/-- The depth at each point of the code, and the depth with which each jump leads to its target. -/
structure Profile where
  depth : Nat → Int
  taken : Nat → Int

/-- An instruction that starts at the depth `a` finds its operands, and whatever follows it has the
depth that it leaves: `b` if this is the next instruction, `taken` if it is the target of a jump. A
jump may still wait for its target. -/
structure Instruction.Steady (v : Version) (top a b taken : Int) (arrives : Nat → Int → Prop)
    (ins : Instruction) : Prop where
  capped : a ≤ top
  onward : ∀ moves, ins.operation.onward? v = some moves → b = a + net moves
  aside : ∀ kind target, ins.operation = .jump kind target →
    taken = a + net kind.aside ∧ ∀ t, target = some t → arrives t taken
  returns : ins.operation.isReturn = true → a = if 11 ≤ v.number then 1 else 0
  enough : ins.operation.isReturn = false →
    ∃ moves, ins.operation.effect v = .ok moves ∧ dip moves ≤ a

namespace Instruction.Steady

variable {top top' a b taken : Int} {arrives arrives' : Nat → Int → Prop} {ins : Instruction}
  {line : UInt32}

theorem mono (h : ins.Steady v top a b taken arrives) (ht : top ≤ top')
    (ha : ∀ t x, arrives t x → arrives' t x) : ins.Steady v top' a b taken arrives' where
  capped := Int.le_trans h.capped ht
  onward := h.onward
  aside kind target hop := ⟨(h.aside kind target hop).1,
    fun t ht => ha t _ ((h.aside kind target hop).2 t ht)⟩
  returns := h.returns
  enough := h.enough

theorem nonneg (h : ins.Steady v top a b taken arrives) : 0 ≤ a := by
  cases hr : ins.operation.isReturn with
  | true =>
    rw [h.returns hr]
    split <;> decide
  | false =>
    obtain ⟨moves, -, hdip⟩ := h.enough hr
    exact Int.le_trans (dip_nonneg moves) hdip

theorem aim (h : ins.Steady v top a b taken arrives) {x : Nat} (hx : arrives x taken) :
    (ins.aim x).Steady v top a b taken arrives := by
  obtain ⟨line, op⟩ := ins
  cases op with
  | jump kind target =>
    refine ⟨h.capped, fun moves hm => h.onward moves ?_, ?_, h.returns, h.enough⟩
    · cases kind <;> exact hm
    · rintro _ _ ⟨⟩
      exact ⟨(h.aside _ _ rfl).1, fun t ht => Option.some.inj ht ▸ hx⟩
  | _ => exact h

theorem plain (ht : op.target? = none) (hr : op.isReturn = false) (he : op.effect v = .ok moves)
    (hdip : dip moves ≤ a) (ha : a ≤ top) :
    Steady v top a (a + net moves) taken arrives ⟨line, op⟩ where
  capped := ha
  onward moves' hm := by
    cases he.symm.trans (Operation.effect_of_onward? hm)
    rfl
  aside kind target hop := by
    rw [show op = .jump kind target from hop] at ht
    cases ht
  returns h := absurd (hr.symm.trans h) Bool.false_ne_true
  enough _ := ⟨moves, he, hdip⟩

theorem jump {kind : Jump} {target : Option Nat} (hdip : dip kind.effect ≤ a) (ha : a ≤ top)
    (hb : kind ≠ .always → b = a + net kind.effect)
    (ht : ∀ t, target = some t → arrives t (a + net kind.aside)) :
    Steady v top a b (a + net kind.aside) arrives ⟨line, .jump kind target⟩ where
  capped := ha
  onward moves hm := by
    cases kind
    case always => cases hm
    all_goals
      cases hm
      exact hb nofun
  aside kind' target hop := by
    cases hop
    exact ⟨rfl, ht⟩
  returns h := by cases h
  enough _ := ⟨kind.effect, rfl, hdip⟩

theorem giveBack (hr : op.isReturn = true) (ha : a = if 11 ≤ v.number then 1 else 0)
    (hcapped : a ≤ top) : Steady v top a b taken arrives ⟨line, op⟩ where
  capped := hcapped
  onward moves hm := by
    unfold Operation.isReturn at hr
    split at hr
    · cases hm
    · cases hm
    · cases hr
  aside kind target hop := by
    rw [show op = .jump kind target from hop] at hr
    cases hr
  returns _ := ha
  enough h := absurd (h.symm.trans hr) Bool.false_ne_true

end Instruction.Steady

theorem Operation.isReturn_eq_false (h : op.isState = false) : op.isReturn = false := by
  cases op <;> first | rfl | cases h

/-- The instructions of the frame have the depths of some profile, from 0 at the start to 0 at the
end. -/
def Frame.Level (v : Version) (f : Frame) : Prop :=
  0 ≤ f.header.depth.highest ∧ ∃ g : Profile, g.depth 0 = 0 ∧ g.depth f.code.length = 0 ∧
    ∀ (i : Nat) (ins : Instruction), f.code[i]? = some ins →
      ins.Steady v f.header.depth.highest (g.depth i) (g.depth (i + 1)) (g.taken i) fun t x =>
        t ≤ f.code.length ∧ g.depth t = x

/-- On every path through a frame an instruction has the depth that belongs to it. -/
theorem Frame.Reached.depth {f : Frame} {g : Profile} {i : Nat} {d : Int} (hr : f.Reached v i d)
    (hstart : g.depth 0 = 0) (hsteady : ∀ (i : Nat) (ins : Instruction), f.code[i]? = some ins →
      ins.Steady v f.header.depth.highest (g.depth i) (g.depth (i + 1)) (g.taken i) fun t x =>
        t ≤ f.code.length ∧ g.depth t = x) : i ≤ f.code.length ∧ g.depth i = d := by
  -- The pair of the point and its depth is what one step preserves.
  have hpath : ∀ p, Relation.ReflTransGen (f.Step v) (0, 0) p →
      p.1 ≤ f.code.length ∧ g.depth p.1 = p.2 := by
    intro p hp
    induction hp with
    | refl => exact ⟨Nat.zero_le _, hstart⟩
    | tail _ hstep ih =>
      cases hstep with
      | onward hi hm =>
        refine ⟨(List.getElem?_eq_some_iff.1 hi).1, ?_⟩
        rw [(hsteady _ _ hi).onward _ hm]
        exact congrArg (· + _) ih.2
      | aside hi =>
        obtain ⟨htaken, harrives⟩ := (hsteady _ _ hi).aside _ _ rfl
        obtain ⟨hle, hx⟩ := harrives _ rfl
        exact ⟨hle, hx.trans (htaken.trans (congrArg (· + _) ih.2))⟩
  exact hpath (i, d) hr

end Adhoc
