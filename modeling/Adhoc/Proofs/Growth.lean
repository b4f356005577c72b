import Mathlib.Data.List.Forall2
import Mathlib.Data.List.Nodup
import Adhoc.Proofs.Run

namespace Adhoc

open List

variable {ins : Instruction} {g : Sketch} {ks : List Nat} {k t n n' : Nat} {quiet : Prop}

/-- Every jump in the frame has a target, and none leads past the end. -/
def Frame.JumpsValid (f : Frame) : Prop :=
  ∀ ins ∈ f.code, ∀ target, ins.operation.target? = some target →
    ∃ t, target = some t ∧ t ≤ f.code.length

namespace Instruction

/-- The instruction with its target set, if it is a jump. -/
def aim (target : Nat) (ins : Instruction) : Instruction :=
  match ins.operation with
  | .jump kind _ => { ins with operation := .jump kind (some target) }
  | _ => ins

def isOpen (ins : Instruction) : Prop := ∃ kind, ins.operation = .jump kind none

/-- The targets in code of length `n` are valid, also in the frames that the instruction holds. -/
structure Fits (n : Nat) (ins : Instruction) : Prop where
  target : ∀ kind t, ins.operation = .jump kind (some t) → t ≤ n
  frames : ∀ f ∈ ins.frames, f.JumpsValid

theorem Fits.mono (h : ins.Fits n) (hn : n ≤ n') : ins.Fits n' :=
  ⟨fun kind t ht => Nat.le_trans (h.target kind t ht) hn, h.frames⟩

@[simp] theorem aim_aim (t : Nat) (ins : Instruction) : (ins.aim t).aim t = ins.aim t := by
  obtain ⟨line, op⟩ := ins
  cases op <;> rfl

@[simp] theorem aim_jump (t : Nat) (line : UInt32) (kind : Jump) (old : Option Nat) :
    aim t ⟨line, .jump kind old⟩ = ⟨line, .jump kind (some t)⟩ := rfl

theorem not_isOpen_aim (t : Nat) (ins : Instruction) : ¬ (ins.aim t).isOpen := by
  obtain ⟨line, op⟩ := ins
  rintro ⟨kind, h⟩
  cases op <;> simp [aim] at h

theorem Fits.aim (h : ins.Fits n) (ht : t ≤ n) : (ins.aim t).Fits n := by
  obtain ⟨line, op⟩ := ins
  cases op
  case jump kind old =>
    refine ⟨?_, fun f hf => nomatch hf⟩
    rintro kind' t' h'
    cases h'
    exact ht
  all_goals exact h

theorem Fits.plain (ht : ins.operation.target? = none) (hf : ins.operation.frames = []) (n : Nat) :
    ins.Fits n := by
  obtain ⟨line, op⟩ := ins
  refine ⟨fun kind t h => ?_, fun f h => ?_⟩
  · simp only at h
    simp [h, Operation.target?] at ht
  · simp only [Instruction.frames] at h
    simp [hf] at h

theorem not_isOpen_of_target (ht : ins.operation.target? = none) : ¬ ins.isOpen := by
  rintro ⟨kind, h⟩
  simp [h, Operation.target?] at ht

end Instruction

/-- What the jumps of a frame depend on while it is made: its code and the marks of its scopes, the
innermost first. -/
structure Sketch where
  code : Array Instruction
  marks : List Mark

def Draft.sketch (d : Draft) : Sketch := ⟨d.code, d.marks⟩

def Mark.notes (m : Mark) : List Nat := m.breaks ++ m.continues

namespace Sketch

/-- The jumps that are noted in the open scopes. -/
def notes (g : Sketch) : List Nat := g.marks.flatMap Mark.notes

def push (g : Sketch) (ins : Instruction) : Sketch := { g with code := g.code.push ins }

/-- Sets the target of the given jumps. -/
def aim (g : Sketch) (ks : List Nat) (target : Nat) : Sketch :=
  { g with code := g.code.mapIdx fun k ins => if k ∈ ks then ins.aim target else ins }

@[simp] theorem push_size (g : Sketch) (ins : Instruction) :
    (g.push ins).code.size = g.code.size + 1 := by
  simp [push]

@[simp] theorem aim_size (g : Sketch) (ks : List Nat) (t : Nat) :
    (g.aim ks t).code.size = g.code.size := by
  simp [aim]

theorem push_get (g : Sketch) (ins : Instruction) (k : Nat) :
    (g.push ins).code[k]? = if k = g.code.size then some ins else g.code[k]? :=
  Array.getElem?_push

theorem aim_get (g : Sketch) (ks : List Nat) (t k : Nat) :
    (g.aim ks t).code[k]? =
      (g.code[k]?).map fun ins => if k ∈ ks then ins.aim t else ins := by
  simp [aim]

theorem aim_get_of_not_mem (h : k ∉ ks) : (g.aim ks t).code[k]? = g.code[k]? := by
  simp [aim_get, h]

theorem aim_nil (g : Sketch) (t : Nat) : g.aim [] t = g := by
  obtain ⟨code, marks⟩ := g
  simp only [aim, mk.injEq, and_true]
  apply Array.ext <;> simp

theorem aim_cons (g : Sketch) (k t : Nat) (ks : List Nat) :
    (g.aim [k] t).aim ks t = g.aim (k :: ks) t := by
  simp only [aim, Array.mapIdx_mapIdx, mk.injEq, and_true]
  congr 1
  funext i ins
  by_cases hk : i = k <;> by_cases hks : i ∈ ks <;> simp [hk, hks]

/-- Noted jumps wait for their target, each is noted once, and only scopes that can be left or
continued note any. -/
structure Tidy (g : Sketch) : Prop where
  noted : ∀ k ∈ g.notes, ∃ line, g.code[k]? = some ⟨line, .jump .always none⟩
  nodup : g.notes.Nodup
  breaks : ∀ m ∈ g.marks, m.kind.takesBreak = false → m.breaks = []
  continues : ∀ m ∈ g.marks, m.kind.isLoop = false → m.continues = []

theorem Tidy.of_no_marks (h : g.marks = []) : g.Tidy := by
  refine ⟨?_, ?_, ?_, ?_⟩ <;> simp [notes, h]

theorem Tidy.lt (h : g.Tidy) (hk : k ∈ g.notes) : k < g.code.size := by
  obtain ⟨line, hl⟩ := h.noted k hk
  exact (Array.getElem?_eq_some_iff.1 hl).1

theorem Tidy.push (h : g.Tidy) (ins : Instruction) : (g.push ins).Tidy := by
  refine ⟨fun k hk => ?_, h.nodup, h.breaks, h.continues⟩
  rw [push_get, if_neg (Nat.ne_of_lt (h.lt hk))]
  exact h.noted k hk

theorem Tidy.aim (h : g.Tidy) (hks : ∀ k ∈ ks, k ∉ g.notes) (t : Nat) : (g.aim ks t).Tidy := by
  refine ⟨fun k hk => ?_, h.nodup, h.breaks, h.continues⟩
  rw [aim_get_of_not_mem fun hm => hks k hm hk]
  exact h.noted k hk

theorem Tidy.enter (h : g.Tidy) (kind : ScopeKind) :
    Tidy { g with marks := ⟨kind, [], []⟩ :: g.marks } := by
  refine ⟨h.noted, h.nodup, fun m hm hk => ?_, fun m hm hk => ?_⟩ <;>
    rcases mem_cons.1 hm with rfl | hm
  · rfl
  · exact h.breaks m hm hk
  · rfl
  · exact h.continues m hm hk

theorem Tidy.take {m m' : Mark} {ms : List Mark} (h : g.Tidy)
    (hg : g.marks = m :: ms)
    (hnotes : g.notes.Perm (ks ++ Sketch.notes ⟨g.code, m' :: ms⟩)) (hm : m'.kind = m.kind)
    (hb : ∀ k ∈ m'.breaks, k ∈ m.breaks) (hc : ∀ k ∈ m'.continues, k ∈ m.continues) :
    Tidy ⟨g.code, m' :: ms⟩ := by
  refine ⟨fun k hk => h.noted k (hnotes.mem_iff.2 (mem_append_right _ hk)),
    (hnotes.nodup_iff.1 h.nodup).of_append_right, fun m'' hm'' hk => ?_, fun m'' hm'' hk => ?_⟩ <;>
    rcases mem_cons.1 hm'' with rfl | hm''
  · have hnil := h.breaks m (by simp [hg]) (hm ▸ hk)
    exact eq_nil_iff_forall_not_mem.2 fun k hk => by simpa [hnil] using hb k hk
  · exact h.breaks m'' (by simp [hg, hm'']) hk
  · have hnil := h.continues m (by simp [hg]) (hm ▸ hk)
    exact eq_nil_iff_forall_not_mem.2 fun k hk => by simpa [hnil] using hc k hk
  · exact h.continues m'' (by simp [hg, hm'']) hk

theorem Tidy.leave {m : Mark} {ms : List Mark} (h : g.Tidy) (hg : g.marks = m :: ms) :
    Tidy ⟨g.code, ms⟩ := by
  have hnotes : g.notes = m.notes ++ Sketch.notes ⟨g.code, ms⟩ := by simp [Sketch.notes, hg]
  have hnodup := h.nodup
  rw [hnotes] at hnodup
  exact ⟨fun k hk => h.noted k (hnotes ▸ mem_append_right _ hk), hnodup.of_append_right,
    fun m' hm' => h.breaks m' (by simp [hg, hm']), fun m' hm' => h.continues m' (by simp [hg, hm'])⟩

end Sketch

/-- A scope keeps what it has noted, and notes jumps from `n` on; `continue` jumps only if it is not
`quiet`. -/
structure Mark.Grows (quiet : Prop) (n : Nat) (m m' : Mark) : Prop where
  kind : m'.kind = m.kind
  breaks : ∀ k ∈ m.breaks, k ∈ m'.breaks
  continues : ∀ k ∈ m.continues, k ∈ m'.continues
  newBreaks : ∀ k ∈ m'.breaks, k ∈ m.breaks ∨ n ≤ k
  newContinues : ∀ k ∈ m'.continues, k ∈ m.continues ∨ (n ≤ k ∧ ¬ quiet)

namespace Mark.Grows

variable {m m' m'' : Mark}

theorem refl (m : Mark) : Mark.Grows quiet n m m :=
  ⟨rfl, fun _ h => h, fun _ h => h, fun _ h => .inl h, fun _ h => .inl h⟩

theorem trans (h : Mark.Grows quiet n m m') (h' : Mark.Grows quiet n' m' m'') (hn : n ≤ n') :
    Mark.Grows quiet n m m'' := by
  refine ⟨h'.kind.trans h.kind, fun k hk => h'.breaks k (h.breaks k hk),
    fun k hk => h'.continues k (h.continues k hk), fun k hk => ?_, fun k hk => ?_⟩
  · rcases h'.newBreaks k hk with hk | hk
    · exact h.newBreaks k hk
    · exact .inr (Nat.le_trans hn hk)
  · rcases h'.newContinues k hk with hk | ⟨hk, hq⟩
    · exact h.newContinues k hk
    · exact .inr ⟨Nat.le_trans hn hk, hq⟩

theorem addBreak (m : Mark) : m.Grows quiet n { m with breaks := m.breaks ++ [n] } := by
  refine ⟨rfl, fun k hk => mem_append_left _ hk, fun _ hk => hk, fun k hk => ?_, fun _ => .inl⟩
  rcases mem_append.1 hk with hk | hk
  · exact .inl hk
  · exact .inr (Nat.le_of_eq (mem_singleton.1 hk).symm)

theorem addContinue (hq : ¬ quiet) (m : Mark) :
    m.Grows quiet n { m with continues := m.continues ++ [n] } := by
  refine ⟨rfl, fun _ hk => hk, fun k hk => mem_append_left _ hk, fun _ => .inl, fun k hk => ?_⟩
  rcases mem_append.1 hk with hk | hk
  · exact .inl hk
  · exact .inr ⟨Nat.le_of_eq (mem_singleton.1 hk).symm, hq⟩

theorem notes (h : Mark.Grows quiet n m m') (hk : k ∈ m'.notes) : k ∈ m.notes ∨ n ≤ k := by
  simp only [Mark.notes, mem_append] at hk ⊢
  rcases hk with hk | hk
  · rcases h.newBreaks k hk with hk | hk
    · exact .inl (.inl hk)
    · exact .inr hk
  · rcases h.newContinues k hk with hk | hk
    · exact .inl (.inr hk)
    · exact .inr hk.1

theorem forall₂_trans {a b c : List Mark} (hn : n ≤ n') (h : Forall₂ (Mark.Grows quiet n) a b)
    (h' : Forall₂ (Mark.Grows quiet n') b c) : Forall₂ (Mark.Grows quiet n) a c := by
  induction h generalizing c with
  | nil =>
    cases h'
    exact .nil
  | cons hm _ ih =>
    cases h' with
    | cons hm' h' => exact .cons (hm.trans hm' hn) (ih h')

end Mark.Grows

/-- A jump that waits for its target and is noted nowhere. -/
structure Sketch.Held (g : Sketch) (n k : Nat) : Prop where
  new : n ≤ k
  unnoted : k ∉ g.notes
  isOpen : ∃ ins, g.code[k]? = some ins ∧ ins.isOpen

/-- Code was appended and jumps were noted in the scopes; the jumps in `held` still wait for their
target. -/
structure Sketch.Grows (quiet : Prop) (held : List Nat) (g g' : Sketch) : Prop where
  size : g.code.size ≤ g'.code.size
  old : ∀ k < g.code.size, g'.code[k]? = g.code[k]?
  marks : Forall₂ (Mark.Grows quiet g.code.size) g.marks g'.marks
  tidy : g'.Tidy
  fits : ∀ k ins, g.code.size ≤ k → g'.code[k]? = some ins → ins.Fits g'.code.size
  pending : ∀ k ins, g.code.size ≤ k → g'.code[k]? = some ins → ins.isOpen →
    k ∈ g'.notes ∨ k ∈ held
  held : ∀ k ∈ held, g'.Held g.code.size k

namespace Sketch

variable {held held' : List Nat} {g' g'' : Sketch} {kind : ScopeKind}

theorem notes_of_grows {ms ms' : List Mark} (h : Forall₂ (Mark.Grows quiet n) ms ms')
    (hk : k ∈ ms'.flatMap Mark.notes) : k ∈ ms.flatMap Mark.notes ∨ n ≤ k := by
  induction h with
  | nil => exact .inl hk
  | cons hm _ ih =>
    rw [flatMap_cons, mem_append] at hk ⊢
    rcases hk with hk | hk
    · exact (hm.notes hk).imp_left .inl
    · exact (ih hk).imp_left .inr

namespace Grows

theorem refl (h : g.Tidy) : Grows quiet [] g g where
  size := Nat.le_refl _
  old _ _ := rfl
  marks := forall₂_same.2 fun m _ => .refl m
  tidy := h
  fits _ _ hk hi := absurd (Array.getElem?_eq_some_iff.1 hi).1 (Nat.not_lt.2 hk)
  pending _ _ hk hi _ := absurd (Array.getElem?_eq_some_iff.1 hi).1 (Nat.not_lt.2 hk)
  held _ h := nomatch h

theorem unnoted (h : Grows quiet held g g') (hk : k ∉ g.notes) (hn : k < g.code.size) :
    k ∉ g'.notes := by
  intro hk'
  rcases notes_of_grows h.marks hk' with h' | h'
  · exact hk h'
  · omega

theorem trans (h : Grows quiet held g g') (h' : Grows quiet held' g' g'') :
    Grows quiet (held ++ held') g g'' where
  size := Nat.le_trans h.size h'.size
  old k hk := (h'.old k (Nat.lt_of_lt_of_le hk h.size)).trans (h.old k hk)
  marks := Mark.Grows.forall₂_trans h.size h.marks h'.marks
  tidy := h'.tidy
  fits k ins hk hi := by
    by_cases hk' : k < g'.code.size
    · rw [h'.old k hk'] at hi
      exact (h.fits k ins hk hi).mono h'.size
    · exact h'.fits k ins (Nat.not_lt.1 hk') hi
  pending k ins hk hi ho := by
    by_cases hk' : k < g'.code.size
    · by_cases hn : k ∈ g''.notes
      · exact .inl hn
      rw [h'.old k hk'] at hi
      rcases h.pending k ins hk hi ho with hm | hm
      · obtain ⟨m, hm, hkm⟩ := mem_flatMap.1 hm
        exact absurd (mem_flatMap.2 (kept h'.marks hm hkm)) hn
      · exact .inr (mem_append_left _ hm)
    · exact (h'.pending k ins (Nat.not_lt.1 hk') hi ho).imp_right (mem_append_right _)
  held k hk := by
    rcases mem_append.1 hk with hk | hk
    · obtain ⟨hn, hu, ins, hi, ho⟩ := h.held k hk
      have hlt := (Array.getElem?_eq_some_iff.1 hi).1
      exact ⟨hn, h'.unnoted hu hlt, ins, (h'.old k hlt).trans hi, ho⟩
    · have hh := h'.held k hk
      exact ⟨Nat.le_trans h.size hh.new, hh.unnoted, hh.isOpen⟩
where
  kept {n : Nat} {ms ms' : List Mark} (h : Forall₂ (Mark.Grows quiet n) ms ms') {m : Mark}
      (hm : m ∈ ms) {k : Nat} (hk : k ∈ m.notes) : ∃ m' ∈ ms', k ∈ m'.notes := by
    induction h with
    | nil => exact nomatch hm
    | cons hmm _ ih =>
      rcases mem_cons.1 hm with rfl | hm
      · refine ⟨_, mem_cons_self, ?_⟩
        simp only [Mark.notes, mem_append] at hk ⊢
        exact hk.imp (hmm.breaks k) (hmm.continues k)
      · obtain ⟨m', hm', hk'⟩ := ih hm
        exact ⟨m', mem_cons_of_mem _ hm', hk'⟩

theorem mono {quiet' : Prop} (h : Grows quiet held g g') (hq : quiet' → quiet)
    (hh : ∀ k, k ∈ held ↔ k ∈ held') : Grows quiet' held' g g' where
  size := h.size
  old := h.old
  marks := h.marks.imp fun _ _ hm =>
    ⟨hm.kind, hm.breaks, hm.continues, hm.newBreaks,
      fun k hk => (hm.newContinues k hk).imp_right fun hn => ⟨hn.1, fun q => hn.2 (hq q)⟩⟩
  tidy := h.tidy
  fits := h.fits
  pending k ins hk hi ho := (h.pending k ins hk hi ho).imp_right (hh k).1
  held k hk := h.held k ((hh k).2 hk)

theorem push (h : g.Tidy) (hf : ins.Fits (g.code.size + 1)) (ho : ins.isOpen → held = [g.code.size])
    (hc : ¬ ins.isOpen → held = []) : Grows quiet held g (g.push ins) where
  size := by simp
  old k hk := by rw [push_get, if_neg (Nat.ne_of_lt hk)]
  marks := forall₂_same.2 fun m _ => .refl m
  tidy := h.push ins
  fits k ins' hk hi := by
    obtain rfl : k = g.code.size := by
      have := (Array.getElem?_eq_some_iff.1 hi).1
      simp only [push_size] at this
      omega
    rw [push_get, if_pos rfl, Option.some.injEq] at hi
    subst hi
    simpa using hf
  pending k ins' hk hi ho' := by
    obtain rfl : k = g.code.size := by
      have := (Array.getElem?_eq_some_iff.1 hi).1
      simp only [push_size] at this
      omega
    rw [push_get, if_pos rfl, Option.some.injEq] at hi
    subst hi
    exact .inr (by simp [ho ho'])
  held k hk := by
    by_cases hi : ins.isOpen
    · obtain rfl : k = g.code.size := by simpa [ho hi] using hk
      exact ⟨Nat.le_refl _, fun hn => Nat.lt_irrefl _ (h.lt hn), ins, by rw [push_get, if_pos rfl], hi⟩
    · simp [hc hi] at hk

theorem plain (h : g.Tidy) {is : List Instruction}
    (his : ∀ i ∈ is, i.operation.target? = none ∧ i.operation.frames = []) :
    Grows quiet [] g ⟨g.code ++ is, g.marks⟩ := by
  induction is generalizing g with
  | nil =>
    rw [show g.code ++ ([] : List Instruction) = g.code by simp]
    exact .refl h
  | cons i is ih =>
    obtain ⟨ht, hf⟩ := his i (by simp)
    have hpush : Grows quiet [] g (g.push i) :=
      push h (.plain ht hf _) (fun ho => absurd ho (Instruction.not_isOpen_of_target ht))
        fun _ => rfl
    have hrest := hpush.trans (ih hpush.tidy fun i hi => his i (by simp [hi]))
    simpa [Sketch.push] using hrest

theorem aim (h : Grows quiet held g g') (hks : ∀ k ∈ ks, k ∈ held) (ht : t ≤ g'.code.size) :
    Grows quiet (held.filter (· ∉ ks)) g (g'.aim ks t) where
  size := by simpa using h.size
  old k hk := by
    have hn : k ∉ ks := fun hm => Nat.not_le.2 hk (h.held k (hks k hm)).new
    rw [aim_get_of_not_mem hn, h.old k hk]
  marks := h.marks
  tidy := h.tidy.aim (fun k hk => (h.held k (hks k hk)).unnoted) t
  fits k ins hk hi := by
    rw [aim_get, Option.map_eq_some_iff] at hi
    obtain ⟨ins', hi, rfl⟩ := hi
    have hf := h.fits k ins' hk hi
    rw [aim_size]
    split
    · exact hf.aim ht
    · exact hf
  pending k ins hk hi ho := by
    rw [aim_get, Option.map_eq_some_iff] at hi
    obtain ⟨ins', hi, rfl⟩ := hi
    split at ho
    · exact absurd ho (Instruction.not_isOpen_aim t ins')
    · rename_i hn
      exact (h.pending k ins' hk hi ho).imp_right fun hm => by simp [hm, hn]
  held k hk := by
    simp only [mem_filter, decide_eq_true_eq] at hk
    obtain ⟨hn, hu, hi⟩ := h.held k hk.1
    refine ⟨hn, hu, ?_⟩
    rw [aim_get_of_not_mem hk.2]
    exact hi

theorem take {m m' : Mark} {ms0 ms : List Mark} (h : Grows quiet held g g')
    (hg : g.marks = ⟨kind, [], []⟩ :: ms0) (hg' : g'.marks = m :: ms)
    (hks : m.notes.Perm (ks ++ m'.notes)) (hm : m'.kind = m.kind)
    (hb : ∀ k ∈ m'.breaks, k ∈ m.breaks) (hc : ∀ k ∈ m'.continues, k ∈ m.continues) :
    Grows quiet (ks ++ held) g ⟨g'.code, m' :: ms⟩ := by
  have hmarks := h.marks
  rw [hg, hg', forall₂_cons] at hmarks
  have hnotes : g'.notes.Perm (ks ++ Sketch.notes ⟨g'.code, m' :: ms⟩) := by
    simp only [Sketch.notes, hg', flatMap_cons, ← append_assoc]
    exact hks.append_right _
  have hnodup := hnotes.nodup_iff.1 h.tidy.nodup
  refine ⟨h.size, h.old, ?_, h.tidy.take hg' hnotes hm hb hc, h.fits, ?_, ?_⟩
  · rw [hg]
    exact .cons ⟨hm.trans hmarks.1.kind, by simp, by simp,
      fun k hk => hmarks.1.newBreaks k (hb k hk),
      fun k hk => hmarks.1.newContinues k (hc k hk)⟩ hmarks.2
  · intro k ins hk hi ho
    rcases h.pending k ins hk hi ho with hn | hn
    · rcases mem_append.1 (hnotes.mem_iff.1 hn) with hn | hn
      · exact .inr (mem_append_left _ hn)
      · exact .inl hn
    · exact .inr (mem_append_right _ hn)
  · intro k hk
    rcases mem_append.1 hk with hk | hk
    · have hn : k ∈ g'.notes := hnotes.mem_iff.2 (mem_append_left _ hk)
      obtain ⟨line, hl⟩ := h.tidy.noted k hn
      have hnew := hmarks.1.notes (hks.mem_iff.2 (mem_append_left _ hk))
      refine ⟨by simpa [Mark.notes] using hnew, disjoint_of_nodup_append hnodup hk, _, hl,
        .always, rfl⟩
    · obtain ⟨hn, hu, hi⟩ := h.held k hk
      exact ⟨hn, fun hm => hu (hnotes.mem_iff.2 (mem_append_right _ hm)), hi⟩

theorem leave {m : Mark} {ms : List Mark}
    (h : Grows quiet held { g with marks := ⟨kind, [], []⟩ :: g.marks } g')
    (hg' : g'.marks = m :: ms) (hm : m.notes = []) : Grows quiet held g ⟨g'.code, ms⟩ := by
  have hmarks := h.marks
  rw [hg', forall₂_cons] at hmarks
  have hnotes : g'.notes = Sketch.notes ⟨g'.code, ms⟩ := by simp [Sketch.notes, hg', hm]
  refine ⟨h.size, h.old, hmarks.2, h.tidy.leave hg', h.fits, fun k ins hk hi ho => ?_,
    fun k hk => ?_⟩
  · exact hnotes ▸ h.pending k ins hk hi ho
  · obtain ⟨hn, hu, hi⟩ := h.held k hk
    exact ⟨hn, hnotes ▸ hu, hi⟩

theorem note {m m' : Mark} {before after : List Mark} {line : UInt32} (h : g.Tidy)
    (hg : g.marks = before ++ m :: after) (hm : m.Grows quiet g.code.size m')
    (hk : m'.notes.Perm (g.code.size :: m.notes))
    (hb : m.kind.takesBreak = false → m'.breaks = [])
    (hc : m.kind.isLoop = false → m'.continues = []) :
    Grows quiet [] g ⟨g.code.push ⟨line, .jump .always none⟩, before ++ m' :: after⟩ := by
  have hpush : Grows quiet [g.code.size] g (g.push ⟨line, .jump .always none⟩) :=
    push h ⟨by simp, fun f hf => nomatch hf⟩ (fun _ => rfl) fun ho => absurd ⟨.always, rfl⟩ ho
  have hnotes : (Sketch.notes ⟨g.code.push ⟨line, .jump .always none⟩, before ++ m' :: after⟩).Perm
      (g.code.size :: g.notes) := by
    simp only [Sketch.notes, hg, flatMap_append, flatMap_cons]
    exact ((hk.append_right _).append_left _).trans perm_middle
  have hmem : ∀ {m''}, m'' ∈ before ++ m' :: after → m'' ∈ g.marks ∨ m'' = m' := by
    simp only [hg, mem_append, mem_cons]
    rintro m'' (hbefore | hnew | hafter)
    · exact .inl (.inl hbefore)
    · exact .inr hnew
    · exact .inl (.inr (.inr hafter))
  refine ⟨hpush.size, hpush.old, ?_, ⟨fun k hk => ?_, hnotes.nodup_iff.2 ?_, fun m'' hm'' hk'' => ?_,
    fun m'' hm'' hk'' => ?_⟩, hpush.fits, fun k ins hk hi ho => ?_, by simp⟩
  · rw [hg]
    exact rel_append (forall₂_same.2 fun m _ => .refl m)
      (.cons hm (forall₂_same.2 fun m _ => .refl m))
  · rcases mem_cons.1 (hnotes.mem_iff.1 hk) with rfl | hk
    · exact ⟨line, by simp⟩
    · exact hpush.tidy.noted k hk
  · exact nodup_cons.2 ⟨(hpush.held _ (by simp)).unnoted, h.nodup⟩
  · rcases hmem hm'' with hm'' | rfl
    · exact h.breaks m'' hm'' hk''
    · exact hb (hm.kind ▸ hk'')
  · rcases hmem hm'' with hm'' | rfl
    · exact h.continues m'' hm'' hk''
    · exact hc (hm.kind ▸ hk'')
  · refine .inl (hnotes.mem_iff.2 (mem_cons.2 ?_))
    rcases hpush.pending k ins hk hi ho with hn | hn
    · exact .inr hn
    · exact .inl (by simpa using hn)

end Grows
end Sketch
end Adhoc
