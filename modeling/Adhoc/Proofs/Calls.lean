import Adhoc.Proofs.Counting
import Adhoc.Proofs.Course
import Mathlib.Algebra.GroupWithZero.Nat
import Mathlib.Algebra.Order.Monoid.Unbundled.WithTop

namespace Adhoc

open List

/-- Whether the operation is `CALL` or `VA_CALL`. -/
def Operation.isCall : Operation → Bool
  | .counted .call _ | .counted .vaCall _ => true
  | _ => false

/-- Whether the operation is plain and no call. -/
def Operation.isSilent (op : Operation) : Bool := op.isPlain && !op.isCall

/-- The number of calls in the frame and all frames below it. -/
def Frame.calls (f : Frame) : Nat :=
  (f.preorder.map fun g => g.code.countP (·.operation.isCall)).sum

/-- The number of calls in the instruction, with those of the frame that it holds. -/
def Instruction.calls (ins : Instruction) : Nat :=
  (if ins.operation.isCall then 1 else 0) +
    (ins.frames.map fun g => g.code.countP (·.operation.isCall)).sum

theorem Instruction.calls_plain {op : Operation} (line : UInt32) (h : op.isPlain = true) :
    Instruction.calls ⟨line, op⟩ = if op.isCall then 1 else 0 := by
  cases op <;> first | rfl | cases h

theorem Instruction.frames_plain {op : Operation} (line : UInt32) (h : op.isPlain = true) :
    Instruction.frames ⟨line, op⟩ = [] := by
  cases op <;> first | rfl | cases h

theorem Frame.calls_eq (f : Frame) : f.calls = (f.code.map Instruction.calls).sum := by
  obtain ⟨header, code⟩ := f
  simp only [Frame.calls, Frame.preorder, map_cons, sum_cons]
  induction code with
  | nil => rfl
  | cons ins rest ih =>
    rw [framesOf, map_append, sum_append, countP_cons, map_cons, sum_cons, ← ih,
      Instruction.calls]
    omega

namespace Draft

/-- The number of calls so far, with those of the frames in the code. -/
def calls (d : Draft) : Nat := (d.code.toList.map Instruction.calls).sum

/-- The code goes on with so many calls, unless that is left open, and with frames that take the slots of their locals for
their names. -/
structure Brings (v : Version) (n : WithTop ℕ) (d e : Draft) : Prop where
  calls : ∀ m, n = .some m → e.calls = d.calls + m
  frames : ∀ g ∈ framesOf e.code.toList, g ∈ framesOf d.code.toList ∨ g.TakesByName v

variable {d e f : Draft} {v : Version} {n : WithTop ℕ}

theorem calls_finish (d : Draft) : d.finish.calls = d.calls := d.finish.calls_eq

namespace Brings

theorem trans {m : WithTop ℕ} (h : d.Brings v m e) (h' : e.Brings v n f) : d.Brings v (m + n) f where
  calls k hk := by
    obtain ⟨i, j, hi, hj, rfl⟩ := WithTop.add_eq_coe.1 hk
    rw [h'.calls j hj.symm, h.calls i hi.symm, add_assoc]
  frames g hg := (h'.frames g hg).elim (h.frames g) .inr

theorem none (hcalls : e.calls = d.calls)
    (hframes : framesOf e.code.toList = framesOf d.code.toList) : d.Brings v 0 e where
  calls m hm := by rw [hcalls, ← WithTop.coe_injective hm, add_zero]
  frames g hg := .inl (hframes ▸ hg)

theorem of_code (h : e.code = d.code) : d.Brings v 0 e :=
  none (by rw [Draft.calls, Draft.calls, h]) (by rw [h])

theorem push {ins : Instruction} (h : e.code = d.code.push ins) (hn : ∀ m, n = .some m → ins.calls = m)
    (hframes : ∀ g ∈ ins.frames, g.TakesByName v) : d.Brings v n e where
  calls m hm := by simp [Draft.calls, h, hn m hm]
  frames g hg := by
    rw [h, Array.toList_push, framesOf_eq, flatMap_append, mem_append, ← framesOf_eq] at hg
    exact hg.imp_right fun hg => hframes g (by simpa using hg)

theorem quiet {ins : Instruction} (h : e.code = d.code.push ins) (hcalls : ins.calls = 0)
    (hframes : ins.frames = []) : d.Brings v 0 e :=
  push h (fun m hm => hcalls.trans (WithTop.coe_injective hm)) (by simp [hframes])

theorem «variable» {reach : Reach} {names : List Symbol} {index : Int} {line : UInt32}
    (h : e.code = d.code.push ⟨line, .variable reach names index⟩) : d.Brings v 0 e := quiet h rfl rfl

theorem subroutine {child : Draft} {name : Option Symbol} {isMethod : Bool} {line : UInt32}
    (h : f.code = e.code.push ⟨line, .subroutine name child.finish isMethod⟩)
    (hchild : d.Brings v n child) (hd : d.code = #[]) (hslots : child.finish.TakesByName v) :
    e.Brings v n f := by
  refine push h (fun m hm => ?_) fun g hg => ?_
  · have hcalls : child.finish.calls = m := by
      rw [child.calls_finish, hchild.calls m hm, Draft.calls, hd]
      exact Nat.zero_add m
    exact (Nat.zero_add _).trans hcalls
  · rcases mem_cons.1 hg with rfl | hg
    · exact hslots
    · exact (hchild.frames g hg).resolve_left (by simp [hd, framesOf])

end Brings

theorem Leaves.brings (h : d.Leaves e) : d.Brings v 0 e := by
  rcases h with hcode | ⟨m, n, hcode⟩
  · exact .of_code hcode
  · exact .quiet hcode rfl rfl

end Draft

namespace Emit

variable {v : Version} {s t : Session}

theorem patch_brings {k target : Nat} (h : patch k target s = .ok ((), t)) :
    s.frame.Brings v 0 t.frame := by
  rw [patch_ok h]
  refine .none (congrArg sum (Sketch.map_aim _ (fun ins target => ?_) _ _ _)) (framesOf_aim _ _ _)
  obtain ⟨line, op⟩ := ins
  cases op <;> rfl

end Emit

end Adhoc
