import Adhoc.Proofs.Placement
import Adhoc.Proofs.Subroutine

namespace Adhoc

open Emit List Operation

/-- The values that a definition finds on the stack: defaults of parameters and captured values. -/
def Operation.operands : Operation → Int
  | .subroutine _ frame _ => frame.header.parameters.length + frame.header.captured.length
  | _ => 0

/-- The values that stand before all definitions in the code. -/
def operandsOf (code : List Instruction) : Int := (code.map (·.operation.operands)).sum

/-- The values that definitions leave on the counter. -/
def owed (v : Version) (code : List Instruction) : Int :=
  if v.has .subroutineConsumesStack then 0 else operandsOf code

theorem Operation.operands_of_frames {op : Operation} (h : op.frames = []) : op.operands = 0 := by
  cases op
  case subroutine name frame isMethod =>
    obtain ⟨header, code⟩ := frame
    simp [frames, Frame.preorder] at h
  all_goals rfl

theorem Operation.operands_aim (ins : Instruction) (target : Nat) :
    (ins.aim target).operation.operands = ins.operation.operands := by
  obtain ⟨line, op⟩ := ins
  cases op <;> rfl

theorem operandsOf_append (a b : List Instruction) :
    operandsOf (a ++ b) = operandsOf a + operandsOf b := by
  simp [operandsOf]

theorem operandsOf_of_frames {code : List Instruction}
    (h : ∀ ins ∈ code, ins.operation.frames = []) : operandsOf code = 0 := by
  induction code with
  | nil => rfl
  | cons ins code ih =>
    rw [forall_mem_cons] at h
    have hcode := ih h.2
    simp only [operandsOf, map_cons, sum_cons] at hcode ⊢
    rw [operands_of_frames h.1, hcode]
    rfl

theorem framesOf_eq (code : List Instruction) : framesOf code = code.flatMap Instruction.frames := by
  induction code with
  | nil => rfl
  | cons ins code ih => rw [framesOf, ih, flatMap_cons]

theorem Instruction.frames_aim (ins : Instruction) (target : Nat) :
    (ins.aim target).frames = ins.frames := by
  obtain ⟨line, op⟩ := ins
  cases op <;> rfl

theorem Sketch.map_aim {β : Type} (f : Instruction → β)
    (hf : ∀ (ins : Instruction) target, f (ins.aim target) = f ins) (g : Sketch) (ks : List Nat)
    (target : Nat) : (g.aim ks target).code.toList.map f = g.code.toList.map f := by
  refine ext_getElem? fun k => ?_
  simp only [getElem?_map, Array.getElem?_toList, Sketch.aim_get, Option.map_map]
  cases g.code[k]? with
  | none => rfl
  | some ins =>
    simp only [Option.map_some, Function.comp_apply, Option.some.injEq]
    split
    · exact hf ins target
    · rfl

theorem operandsOf_aim (g : Sketch) (ks : List Nat) (target : Nat) :
    operandsOf (g.aim ks target).code.toList = operandsOf g.code.toList := by
  rw [operandsOf, Sketch.map_aim (fun ins => ins.operation.operands) operands_aim, operandsOf]

theorem framesOf_aim (g : Sketch) (ks : List Nat) (target : Nat) :
    framesOf (g.aim ks target).code.toList = framesOf g.code.toList := by
  simp only [framesOf_eq, flatMap_def, Sketch.map_aim _ Instruction.frames_aim]

section

variable (fit nested : Prop) (v : Version)

/-- From `s` to `t` the depth was changed by `n`, apart from what is owed, and it was taken at most
`low` below its start. This is only said of a part that is `fit`; if nested frames are looked at,
none of those that were added ever falls below its start. -/
structure Tallied (n low : Int) (s t : Session) : Prop where
  keeps : s.frame.Keeps t.frame
  moves : fit → ∃ ms, t.frame.depth = s.frame.depth.follow ms ∧ dip ms ≤ low ∧
    net ms = n + (owed v t.frame.code.toList - owed v s.frame.code.toList)
  owed_le : owed v s.frame.code.toList ≤ owed v t.frame.code.toList
  frames : fit → nested → ∀ f ∈ framesOf t.frame.code.toList,
    f ∈ framesOf s.frame.code.toList ∨ f.header.depth.lowest = 0

/-- Every run of the action is counted. -/
abbrev Emit.Counts {α : Type} (n low : Int) (x : Emit α) : Prop := Runs (Tallied fit nested v) n low x

end

variable {α : Type} {fit nested fit' : Prop} {v : Version} {low n low' n' : Int} {x : Emit α}

/-- Code is appended whose definitions leave nothing. -/
theorem Tallied.append (is : List Instruction) (ms : List Move) {s t : Session}
    (hcode : t.frame.code = s.frame.code ++ is) (his : ∀ i ∈ is, i.operation.frames = [])
    (hdepth : t.frame.depth = s.frame.depth.follow ms) (hn : net ms = n) (hl : dip ms ≤ low)
    (hkeeps : s.frame.Keeps t.frame) : Tallied fit nested v n low s t := by
  have hnone := operandsOf_of_frames his
  have howed : owed v t.frame.code.toList = owed v s.frame.code.toList := by
    simp [owed, hcode, operandsOf_append, hnone]
  refine ⟨hkeeps, fun _ => ⟨ms, hdepth, hl, by omega⟩, Int.le_of_eq howed.symm, fun _ _ f hf => ?_⟩
  rw [hcode, Array.toList_appendList, framesOf_eq, flatMap_append, mem_append] at hf
  rcases hf with hf | hf
  · exact .inl (framesOf_eq _ ▸ hf)
  · obtain ⟨⟨line, op⟩, hi, hf⟩ := mem_flatMap.1 hf
    rw [Instruction.frames, his _ hi] at hf
    cases hf

theorem Tallied.join {l : Int} {s r t : Session} (h : Tallied fit nested v n low s r)
    (h' : Tallied fit nested v n' low' r t)
    (hl : ∀ ms ms', dip ms ≤ low → dip ms' ≤ low' → n ≤ net ms → dip (ms ++ ms') ≤ l) :
    Tallied fit nested v (n + n') l s t := by
  obtain ⟨hk, hm, ho, hf⟩ := h
  obtain ⟨hk', hm', ho', hf'⟩ := h'
  refine ⟨hk.trans hk', fun h => ?_, Int.le_trans ho ho', fun h hn f hmem => ?_⟩
  · obtain ⟨ms, hd, hdip, hnet⟩ := hm h
    obtain ⟨ms', hd', hdip', hnet'⟩ := hm' h
    refine ⟨ms ++ ms', ?_, hl ms ms' hdip hdip' (by omega), ?_⟩
    · rw [hd', hd, Depth.follow_append]
    · rw [net_append, hnet, hnet']
      omega
  · exact (hf' h hn f hmem).elim (hf h hn f) .inr

instance : Ledger v True (Tallied fit nested v) where
  straight := by
    rintro n low s t ⟨⟨is, ms, hc, ht, hd, hn, hl⟩, -, hk, -⟩
    exact .append is ms hc (fun i hi => (ht.plain i hi).2) hd hn hl hk
  trans h h' := h.join h' fun ms ms' hl hl' hn => by
    rw [dip_append]
    omega
  after {n _ _ _ _} h h' := Int.zero_add n ▸ h.join h' fun ms ms' hl hl' hn => by
    have := dip_nonneg ms'
    rw [dip_append]
    omega
  before {n _ _ _ _} h h' := Int.add_zero n ▸ h.join h' fun ms ms' hl hl' hn => by
    have := neg_net_le_dip ms
    rw [dip_append]
    omega
  mono := by
    rintro n low n' low' s t ⟨hk, hm, ho, hf⟩ rfl hl
    refine ⟨hk, fun h => ?_, ho, hf⟩
    obtain ⟨ms, hd, hl', hnet⟩ := hm h
    exact ⟨ms, hd, Int.le_trans hl' hl, hnet⟩

theorem Tallied.under {s t : Session} (h : Tallied fit nested v n low s t)
    (hfit : fit' → fit ∧ n = n' ∧ low ≤ low') : Tallied fit' nested v n' low' s t := by
  refine ⟨h.keeps, fun hf => ?_, h.owed_le, fun hf => h.frames (hfit hf).1⟩
  obtain ⟨hf, rfl, hl⟩ := hfit hf
  exact (Ledger.mono h rfl hl).moves hf

theorem Emit.Runs.under (h : Counts fit nested v n low x)
    (hfit : fit' → fit ∧ n = n' ∧ low ≤ low') :
    Counts fit' nested v n' low' x := fun _ _ _ hr => (h hr).under hfit

theorem Emit.Runs.refit (h : Counts fit nested v n low x) (hfit : fit → n = n' ∧ low ≤ low') :
    Counts fit nested v n' low' x :=
  h.under fun hf => ⟨hf, hfit hf⟩

theorem Tallied.of_eq {s t : Session} (hcode : t.frame.code = s.frame.code)
    (hdepth : t.frame.depth = s.frame.depth) (hkeeps : s.frame.Keeps t.frame) :
    Tallied fit nested v 0 0 s t :=
  .append [] [] (by simp [hcode]) (fun _ h => nomatch h) hdepth rfl (by decide) hkeeps

namespace Emit

theorem onScopes_counts {step : Drafting α}
    (h : ∀ d a e, step d = .ok (a, e) → ∃ scopes, e = { d with scopes := scopes }) :
    Counts fit nested v 0 0 (onFrame step) := by
  intro s a t hr
  obtain ⟨d, hd, rfl⟩ := onFrame_ok.1 hr
  obtain ⟨scopes, rfl⟩ := h _ _ _ hd
  exact .of_eq rfl rfl ⟨rfl, rfl, fun _ => rfl⟩

theorem pushScope_counts (kind : ScopeKind) : Counts fit nested v 0 0 (pushScope kind) := by
  refine onScopes_counts fun d a e h => ?_
  cases h
  exact ⟨_, rfl⟩

theorem popScope_counts : Counts fit nested v 0 0 (onFrame Draft.popScope) := by
  refine onScopes_counts fun d a e h => ?_
  simp only [Draft.popScope] at h
  split at h <;> cases h
  exact ⟨_, rfl⟩

theorem updateScope_counts (f : Scope → α × Scope) :
    Counts fit nested v 0 0 (onFrame (Draft.updateScope f)) := by
  refine onScopes_counts fun d a e h => ?_
  simp only [Draft.updateScope] at h
  split at h <;> cases h
  exact ⟨_, rfl⟩

theorem noted_counts (label : Option String) (k : Nat) :
    Counts fit nested v 0 0 (onFrame (Draft.noteBreak label k)) ∧
      Counts fit nested v 0 0 (onFrame (Draft.noteContinue label k)) := by
  constructor <;> refine onScopes_counts fun d a e h => ?_
  all_goals
    simp only [Draft.noteBreak, Draft.noteContinue] at h
    split at h <;> cases h <;> exact ⟨_, rfl⟩

theorem patchAll_counts (ks : List Nat) (target : Nat) :
    Counts fit nested v 0 0 (patchAll ks target) := by
  intro s a t hr
  obtain rfl := patchAll_ok hr
  have howed : owed v (s.frame.sketch.aim ks target).code.toList = owed v s.frame.code.toList := by
    simp only [owed, operandsOf_aim]
    rfl
  refine ⟨⟨rfl, rfl, fun _ => rfl⟩, fun _ => ⟨[], rfl, Int.le_refl _, ?_⟩, Int.le_of_eq howed.symm,
    fun _ _ f hf => .inl (framesOf_aim s.frame.sketch ks target ▸ hf)⟩
  simp only [net, howed]
  simp

theorem patchHere_counts (k : Nat) : Counts fit nested v 0 0 (patchHere k) :=
  fun _ _ _ hr => patchAll_counts [k] _ (patchHere_ok hr)

theorem jumpWith_counts (kind : Jump) (target : Option Nat) (line : UInt32) :
    Counts fit nested v (net kind.effect) (dip kind.effect) (add v (.jump kind target) line) := by
  intro s a t hr
  obtain ⟨moves, he, -, rfl⟩ := add_ok.1 hr
  cases he
  refine .append [⟨line, .jump kind target⟩] kind.effect (by simp) ?_ rfl rfl
    (Int.le_refl _) ⟨rfl, rfl, fun _ => rfl⟩
  simp [Operation.frames]

theorem jump_counts (kind : Jump) (line : UInt32) :
    Counts fit nested v (net kind.effect) (dip kind.effect) (jump v kind line) :=
  jumpWith_counts kind none line

theorem jumpTo_counts (target : Nat) (line : UInt32) :
    Counts fit nested v 0 0 (jumpTo v target line) :=
  .discard (jumpWith_counts .always (some target) line)

theorem leaveScope_counts (leaves : Bool) : Counts fit nested v 0 0 (leaveScope v leaves) := by
  refine .after popScope_counts fun scope => ?_
  have hlast : Counts fit nested v 0 0 (markLeave v leaves) := by
    refine .ite (.skip .frame fun f => ?_) (.neutral (.pure _))
    exact .emit _ rfl rfl (by decide)
  dsimp only
  split
  · exact .skip (freeAll_neutral _ _) fun _ => hlast
  · exact hlast

theorem leaveModuleScope_counts : Counts fit nested v 0 0 (leaveModuleScope v) := by
  refine .after popScope_counts fun scope => ?_
  have hlast : Counts fit nested v 0 0 (markModuleLeave v) := by
    refine .ite (.skip .get fun s => ?_) (.neutral (.pure _))
    exact .emit _ rfl rfl (by decide)
  dsimp only
  split
  · exact .skip (freeAll_neutral _ _) fun _ => hlast
  · exact hlast

end Emit

end Adhoc
