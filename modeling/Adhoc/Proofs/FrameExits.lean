import Adhoc.Proofs.Counting
import Adhoc.Proofs.Flow

namespace Adhoc

open List Array Option

/-- The instruction gives control back, and no jump up to it goes further. -/
structure Frame.ReturnsAt (f : Frame) (r : Nat) : Prop where
  returns : ∃ ins, f.code[r]? = some ins ∧ ins.operation.isReturn = true
  closed : ∀ k line kind t, k ≤ r → f.code[k]? = some ⟨line, .jump kind (some t)⟩ → t ≤ r

/-- Control leaves the frame by a return. -/
def Frame.Returns (f : Frame) : Prop := ∃ r, f.ReturnsAt r

theorem Frame.ReturnsAt.congr {f g : Frame} {r : Nat} (h : f.ReturnsAt r)
    (hcode : ∀ k ≤ r, g.code[k]? = f.code[k]?) : g.ReturnsAt r := by
  obtain ⟨⟨ins, hi, hr⟩, hclosed⟩ := h
  refine ⟨⟨ins, (hcode r le_rfl).trans hi, hr⟩, fun k line kind t hk hj => ?_⟩
  exact hclosed k line kind t hk (hcode k hk ▸ hj)

theorem Frame.Returns.congr {f g : Frame} (h : f.Returns) (hcode : g.code = f.code) : g.Returns :=
  h.imp fun _ hr => hr.congr fun _ _ => by rw [hcode]

/-- Where control can go from an instruction: on to the next one, unless it is given back, or to the
target of a jump. -/
inductive Frame.Successor (f : Frame) : Nat → Nat → Prop
  | next {i : Nat} {ins : Instruction} : f.code[i]? = some ins → ins.operation.isReturn = false →
    Successor f i (i + 1)
  | target {i t : Nat} {line : UInt32} {kind : Jump} :
    f.code[i]? = some ⟨line, .jump kind (some t)⟩ → Successor f i t

theorem Frame.ReturnsAt.successor_le {f : Frame} {r i j : Nat} (h : f.ReturnsAt r)
    (hij : f.Successor i j) (hi : i ≤ r) : j ≤ r := by
  cases hij with
  | next hget honward =>
    obtain ⟨ret, hret, hreturn⟩ := h.returns
    refine Nat.lt_of_le_of_ne hi fun hir => ?_
    obtain rfl := some.inj ((hir ▸ hget).symm.trans hret)
    cases honward.symm.trans hreturn
  | target hjump => exact h.closed _ _ _ _ hi hjump

theorem Frame.ReturnsAt.reached_le {f : Frame} {r i : Nat} (h : f.ReturnsAt r)
    (hi : Relation.ReflTransGen f.Successor 0 i) : i ≤ r := by
  induction hi with
  | refl => exact Nat.zero_le r
  | tail _ hij ih => exact h.successor_le hij ih

/-- The invariant of a draft. The construct at hand holds the jumps `js`. -/
structure Draft.Exits (js : List Nat) (d : Draft) : Prop where
  bounded : ∀ (k : Nat) line kind t, d.code[k]? = some ⟨line, .jump kind (some t)⟩ → t ≤ d.code.size
  frames : ∀ f ∈ framesOf d.code.toList, f.Returns
  returned : d.returnsAtTop = true →
    ∃ r, d.finish.ReturnsAt r ∧ ∀ k, k ∈ js ∨ k ∈ d.sketch.notes → r < k

namespace Draft.Exits

variable {d e : Draft} {js js' : List Nat} {ins : Instruction}

theorem of_empty (hcode : d.code = #[]) (hreturns : d.returnsAtTop = false) : d.Exits js := by
  refine ⟨fun k line kind t hj => ?_, fun f hf => ?_, fun hr => ?_⟩
  · simp [hcode] at hj
  · simp [hcode, framesOf] at hf
  · cases hreturns.symm.trans hr

theorem mono (h : d.Exits js) (hjs : ∀ k ∈ js', k ∈ js) : d.Exits js' := by
  refine ⟨h.bounded, h.frames, fun hd => ?_⟩
  obtain ⟨r, hr, hlt⟩ := h.returned hd
  exact ⟨r, hr, fun k hk => hlt k (hk.imp_left (hjs k))⟩

theorem advance (h : d.Exits js) (hreturns : e.returnsAtTop = true → d.returnsAtTop = true)
    (hold : ∀ k < d.code.size, k ∉ js → e.code[k]? = d.code[k]?)
    (hheld : ∀ k, k ∈ js' ∨ k ∈ e.sketch.notes → k ∈ js ∨ k ∈ d.sketch.notes ∨ d.code.size ≤ k)
    (hbounded : ∀ (k : Nat) line kind t, e.code[k]? = some ⟨line, .jump kind (some t)⟩ →
      t ≤ e.code.size)
    (hframes : ∀ f ∈ framesOf e.code.toList, f.Returns) : e.Exits js' := by
  refine ⟨hbounded, hframes, fun he => ?_⟩
  obtain ⟨r, hr, hlt⟩ := h.returned (hreturns he)
  have hsize : r < d.code.size := by
    obtain ⟨ins, hi, -⟩ := hr.returns
    exact (List.getElem?_eq_some_iff.1 hi).1
  refine ⟨r, hr.congr fun k hk => ?_, fun k hk => ?_⟩
  · simp only [Draft.finish, Array.getElem?_toList]
    exact hold k (Nat.lt_of_le_of_lt hk hsize) fun hm => Nat.not_lt.2 hk (hlt k (.inl hm))
  · rcases hheld k hk with hk | hk | hk
    · exact hlt k (.inl hk)
    · exact hlt k (.inr hk)
    · exact Nat.lt_of_lt_of_le hsize hk

theorem congr (h : d.Exits js) (hcode : e.code = d.code)
    (hreturns : e.returnsAtTop = true → d.returnsAtTop = true)
    (hheld : ∀ k, k ∈ js' ∨ k ∈ e.sketch.notes → k ∈ js ∨ k ∈ d.sketch.notes) : e.Exits js' := by
  refine h.advance hreturns (fun k _ _ => by rw [hcode]) (fun k hk => (hheld k hk).imp_right .inl) ?_ ?_
  · rw [hcode]
    exact h.bounded
  · rw [hcode]
    exact h.frames

theorem push (h : d.Exits js) (hcode : e.code = d.code.push ins)
    (hreturns : e.returnsAtTop = true → d.returnsAtTop = true)
    (hheld : ∀ k, k ∈ js' ∨ k ∈ e.sketch.notes → k ∈ js ∨ k ∈ d.sketch.notes ∨ d.code.size ≤ k)
    (htarget : ∀ kind t, ins.operation = .jump kind (some t) → t ≤ d.code.size)
    (hframes : ∀ f ∈ ins.frames, f.Returns) : e.Exits js' := by
  refine h.advance hreturns (fun k hk _ => ?_) hheld (fun k line kind t hj => ?_) fun f hf => ?_
  · rw [hcode, getElem?_push, if_neg (Nat.ne_of_lt hk)]
  · rw [hcode, getElem?_push] at hj
    rw [hcode, size_push]
    split at hj
    · exact Nat.le_succ_of_le (htarget kind t (by rw [some.inj hj]))
    · exact Nat.le_succ_of_le (h.bounded k line kind t hj)
  · rw [hcode, framesOf_eq, Array.toList_push, List.flatMap_append, List.mem_append] at hf
    rcases hf with hf | hf
    · exact h.frames f (framesOf_eq _ ▸ hf)
    · exact hframes f (by simpa using hf)

theorem patch {k target : Nat} {line : UInt32} {kind : Jump} (h : d.Exits (k :: js))
    (htarget : target ≤ d.code.size) :
    Exits js { d with code := d.code.setIfInBounds k ⟨line, .jump kind (some target)⟩ } := by
  have hget : ∀ (i : Nat) (ins : Instruction),
      (d.code.setIfInBounds k ⟨line, .jump kind (some target)⟩)[i]? = some ins →
      ins = ⟨line, .jump kind (some target)⟩ ∨ d.code[i]? = some ins := by
    intro i ins hi
    rw [getElem?_setIfInBounds] at hi
    split at hi
    · split at hi
      · exact .inl (some.inj hi).symm
      · cases hi
    · exact .inr hi
  refine h.advance id (fun i _ hn => ?_) (fun i hi => ?_) (fun i line' kind' t hj => ?_) fun f hf => ?_
  · exact getElem?_setIfInBounds_ne fun hik => hn (by simp [hik])
  · exact hi.imp (mem_cons_of_mem k) .inl
  · rw [size_setIfInBounds]
    rcases hget i _ hj with heq | hj
    · cases heq
      exact htarget
    · exact h.bounded i line' kind' t hj
  · rw [framesOf_eq, List.mem_flatMap] at hf
    obtain ⟨ins, hins, hf⟩ := hf
    obtain ⟨i, hi⟩ := List.getElem?_of_mem hins
    rw [getElem?_toList] at hi
    rcases hget i ins hi with rfl | hi
    · cases hf
    · exact h.frames f (framesOf_eq _ ▸ mem_flatMap.2
        ⟨ins, mem_toList_iff.2 (mem_of_getElem? hi), hf⟩)

theorem returns_push (h : d.Exits js) (hcode : e.code = d.code.push ins)
    (hins : ins.operation.isReturn = true) : e.finish.Returns := by
  refine ⟨d.code.size, ⟨ins, ?_, hins⟩, fun k line kind t _ hj => ?_⟩
  · simp [Draft.finish, hcode]
  · simp only [Draft.finish, hcode, getElem?_toList, getElem?_push] at hj
    split at hj
    · rw [some.inj hj] at hins
      cases hins
    · exact h.bounded k line kind t hj

end Draft.Exits

end Adhoc
