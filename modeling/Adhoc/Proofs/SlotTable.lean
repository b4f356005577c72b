import Adhoc.Proofs.Cells

namespace Adhoc.Slots

variable {a b slots : Slots} {k k' : SlotKind} {x y : Symbol} {i j : Nat} {c : Option Symbol}

/-- What the slot holds as a variable of the kind. -/
def holds (slots : Slots) : SlotKind → Nat → Option Symbol
  | .local => slots.local?
  | .static => slots.static?

def index? (slots : Slots) : SlotKind → Symbol → Option Nat
  | .local => slots.localIndex?
  | .static => slots.staticIndex?

/-- The size of the table that variables of the kind are in. -/
def tableSize (slots : Slots) : SlotKind → Nat
  | .local => slots.localSize
  | .static => slots.staticSize?.getD slots.localSize

/-- The index of a new slot. -/
def add (slots : Slots) : SlotKind → Option Symbol → Nat × Slots
  | .local, c => slots.addLocal c
  | .static, c => slots.addStatic c

/-- The index of a variable and whether its slot is new. -/
def enter (slots : Slots) : SlotKind → Symbol → (Nat × Bool) × Slots
  | .local => slots.findOrAddLocal
  | .static => slots.findOrAddStatic

def free (slots : Slots) : SlotKind → Symbol → Slots
  | .local => slots.freeLocal
  | .static => slots.freeStatic

theorem index?_eq_some : slots.index? k x = some i ↔
    slots.holds k i = some x ∧ ∀ j < i, slots.holds k j ≠ some x := by
  cases k
  · exact localIndex?_eq_some
  · exact staticIndex?_eq_some

theorem index?_eq_none : slots.index? k x = none ↔ ∀ j, slots.holds k j ≠ some x :=
  index_eq_none fun _ => index?_eq_some

theorem index?_congr (h : ∀ i, a.holds k i = some x ↔ b.holds k i = some x) :
    a.index? k x = b.index? k x := by
  refine Option.ext fun i => ?_
  simp only [index?_eq_some, ne_eq, h]

theorem add_holds : (slots.add k c).2.holds k' i =
    if k' = k ∧ i = (slots.add k c).1 then c else slots.holds k' i := by
  cases k <;> cases k'
  · simpa [holds, add] using addLocal_local? c i
  · simpa [holds, add] using congrFun (addLocal_static? c) i
  · simpa [holds, add] using congrFun (addStatic_local? c) i
  · simpa [holds, add] using addStatic_static? c i

theorem add_vacant : slots.holds k (slots.add k c).1 = none := by
  cases k
  · exact addLocal_empty c
  · exact addStatic_empty c le_rfl

theorem free_holds : (slots.free k x).holds k' i =
    if k' = k ∧ slots.index? k x = some i then none else slots.holds k' i := by
  cases k <;> cases k'
  · simpa [holds, free, index?] using freeLocal_local?
  · simpa [holds, free] using congrFun freeLocal_static? i
  · simpa [holds, free] using congrFun freeStatic_local? i
  · simpa [holds, free, index?] using freeStatic_static?

theorem enter_of_some (h : slots.index? k x = some i) : slots.enter k x = ((i, false), slots) := by
  cases k
  · simp only [enter, findOrAddLocal, show slots.localIndex? x = some i from h]
  · simp only [enter, findOrAddStatic, show slots.staticIndex? x = some i from h]

theorem enter_of_none (h : slots.index? k x = none) : slots.enter k x =
    (((slots.add k (some x)).1, true), (slots.add k (some x)).2) := by
  cases k
  · simp only [enter, findOrAddLocal, show slots.localIndex? x = none from h]
    rfl
  · simp only [enter, findOrAddStatic, show slots.staticIndex? x = none from h]
    rfl

theorem enter_cases (slots : Slots) (k : SlotKind) (x : Symbol) : (slots.enter k x).2 = slots ∨
    slots.index? k x = none ∧ (slots.enter k x).2 = (slots.add k (some x)).2 := by
  cases h : slots.index? k x with
  | some i => exact .inl (by rw [enter_of_some h])
  | none => exact .inr ⟨rfl, by rw [enter_of_none h]⟩

theorem enter_index? : (slots.enter k x).2.index? k x = some (slots.enter k x).1.1 := by
  cases h : slots.index? k x with
  | some i => rw [enter_of_some h, h]
  | none =>
    rw [enter_of_none h]
    refine index?_eq_some.2 ⟨by rw [add_holds, if_pos ⟨rfl, rfl⟩], fun j hj => ?_⟩
    rw [add_holds, if_neg fun hk => Nat.ne_of_lt hj hk.2]
    exact index?_eq_none.1 h j

/-- The length of the table that variables of the kind are in. -/
def tableLength : SlotTables → SlotKind → Nat
  | .split locals _, .local => locals.length
  | .split _ statics, .static => statics.length
  | .unified cells, _ => cells.length

theorem tableSize_eq : slots.tableSize k = tableLength slots.tables k := by
  obtain ⟨hlocal, hstatic⟩ := slots.sizes
  rcases slots with ⟨⟨locals, statics⟩ | cells, _⟩ <;> cases k <;>
    simp_all [tableSize, staticSize?, tableLength, SlotTables.localLength,
      SlotTables.staticLength]

theorem holds_lt (h : slots.holds k i = some x) : i < slots.tableSize k := by
  by_contra hi
  have hi := not_lt.1 hi
  rw [tableSize_eq] at hi
  rcases slots with ⟨⟨locals, statics⟩ | cells, _⟩ <;> cases k <;>
    simp [holds, local?, static?, cell_eq_none hi] at h

theorem tableSize_le_add : slots.tableSize k' ≤ (slots.add k c).2.tableSize k' := by
  rw [tableSize_eq, tableSize_eq]
  cases k with
  | «local» =>
    rcases slots with ⟨⟨_ | ⟨r, rest⟩, statics⟩ | cells, _⟩
    · cases k' <;> simp [tableLength, add, addLocal, SlotTables.addLocal, change]
    · cases k' <;>
        simp [tableLength, add, addLocal, SlotTables.addLocal, change, length_le_place]
    · cases k' <;> exact length_le_place _ cells
  | static =>
    rcases slots with ⟨⟨locals, statics⟩ | cells, _⟩ <;> cases k' <;>
      simp [tableLength, add, addStatic, SlotTables.addStatic, change]

theorem free_induction {P : Slots → Prop} (h : P slots) (hclear : ∀ i, P (slots.clear k i)) :
    P (slots.free k x) := by
  cases k
  · simp only [free, freeLocal]
    split
    · exact hclear _
    · exact h
  · simp only [free, freeStatic]
    split
    · exact hclear _
    · exact h

theorem tableSize_free : (slots.free k x).tableSize k' = slots.tableSize k' := by
  refine free_induction (P := fun s => s.tableSize k' = slots.tableSize k') rfl fun i => ?_
  rw [tableSize_eq, tableSize_eq]
  rcases slots with ⟨⟨locals, statics⟩ | cells, _⟩ <;> cases k <;> cases k' <;>
    simp [tableLength, Slots.clear, SlotTables.clear, change]

/-- Locals have a table of their own, with nothing in the reserved slot. -/
def Reserves (slots : Slots) : Prop :=
  ∃ rest statics, slots.tables = .split (none :: rest) statics

theorem Reserves.add (h : slots.Reserves) (k : SlotKind) (c : Option Symbol) :
    (slots.add k c).2.Reserves := by
  obtain ⟨rest, statics, h⟩ := h
  cases k
  · exact ⟨place c rest, statics, by simp [Slots.add, addLocal, change, h, SlotTables.addLocal]⟩
  · exact ⟨rest, statics ++ [c], by simp [Slots.add, addStatic, change, h, SlotTables.addStatic]⟩

theorem Reserves.clear (h : slots.Reserves) (k : SlotKind) (i : Nat) : (slots.clear k i).Reserves := by
  obtain ⟨rest, statics, h⟩ := h
  cases k
  · cases i with
    | zero => exact ⟨rest, statics, by simp [Slots.clear, change, h, SlotTables.clear]⟩
    | succ i => exact ⟨rest.set i none, statics, by simp [Slots.clear, change, h, SlotTables.clear]⟩
  · exact ⟨rest, statics.set i none, by simp [Slots.clear, change, h, SlotTables.clear]⟩

theorem Reserves.free (h : slots.Reserves) (k : SlotKind) (x : Symbol) : (slots.free k x).Reserves :=
  free_induction h (h.clear k)

theorem empty_reserves {v : Version} (hv : v.has .splitStorage = true) : (empty v).Reserves :=
  ⟨[], [], by rw [empty, if_pos hv]⟩

inductive Request
  /-- A new slot, which may be left without a name. -/
  | add (kind : SlotKind) (cell : Option Symbol)
  /-- The slot of a variable, which is new if it has none. -/
  | enter (kind : SlotKind) (symbol : Symbol)
  | free (kind : SlotKind) (symbol : Symbol)
deriving DecidableEq

namespace Request

def run (slots : Slots) : Request → Slots
  | .add kind cell => (slots.add kind cell).2
  | .enter kind symbol => (slots.enter kind symbol).2
  | .free kind symbol => slots.free kind symbol

/-- The variable that the request names. -/
def subject? : Request → Option (SlotKind × Symbol)
  | .add kind cell => cell.map (kind, ·)
  | .enter kind symbol | .free kind symbol => some (kind, symbol)

variable {r : Request}

theorem run_induction {P : Slots → Prop} (h : P slots) (hadd : ∀ k c, P (slots.add k c).2)
    (hfree : ∀ k x, r = .free k x → P (slots.free k x)) : P (r.run slots) := by
  cases r with
  | add k c => exact hadd k c
  | free k x => exact hfree k x rfl
  | enter k x =>
    rcases enter_cases slots k x with heq | ⟨-, heq⟩ <;> rw [run, heq]
    · exact h
    · exact hadd k (some x)

theorem reserves (r : Request) (h : slots.Reserves) : (r.run slots).Reserves :=
  run_induction h h.add fun k x _ => h.free k x

theorem run_holds (h : r.subject? ≠ some (k', y)) :
    (r.run slots).holds k' i = some y ↔ slots.holds k' i = some y := by
  have hadd : ∀ {k c}, (add k c).subject? ≠ some (k', y) →
      ((slots.add k c).2.holds k' i = some y ↔ slots.holds k' i = some y) := by
    intro k c hne
    rw [add_holds]
    split
    · rename_i hnew
      obtain ⟨rfl, rfl⟩ := hnew
      rw [add_vacant]
      refine ⟨fun hc => absurd ?_ hne, fun hc => by cases hc⟩
      rw [subject?, hc]
      rfl
    · rfl
  cases r with
  | add k c => exact hadd h
  | enter k x =>
    rcases enter_cases slots k x with heq | ⟨-, heq⟩ <;> rw [run, heq]
    exact hadd h
  | free k x =>
    rw [run, free_holds]
    split
    · rename_i hfreed
      obtain ⟨rfl, hx⟩ := hfreed
      rw [(index?_eq_some.1 hx).1]
      refine ⟨fun hc => (by cases hc), fun hc => absurd ?_ h⟩
      rw [Option.some.inj hc]
      rfl
    · rfl

theorem keeps_index (h : slots.index? k x = some i) (hadd : r ≠ .add k (some x))
    (hfree : r ≠ .free k x) : (r.run slots).index? k x = some i := by
  by_cases hr : r = .enter k x
  · rw [hr, run, enter_of_some h, h]
  · refine (index?_congr fun j => run_holds ?_).trans h
    intro hnamed
    rcases r with ⟨k', _ | y⟩ | ⟨k', y⟩ | ⟨k', y⟩ <;> cases hnamed
    · exact hadd rfl
    · exact hr rfl
    · exact hfree rfl

end Request

/-- Every variable has one slot of its kind. -/
def Single (slots : Slots) : Prop :=
  ∀ k x i j, slots.holds k i = some x → slots.holds k j = some x → i = j

theorem empty_single (v : Version) : (empty v).Single := by
  intro k x i j h
  have hsize := holds_lt h
  unfold empty at h hsize
  split at h <;> cases k <;> simp_all [holds, local?, cell, tableSize, staticSize?]

theorem Single.free (h : slots.Single) (k : SlotKind) (x : Symbol) : (slots.free k x).Single := by
  intro k' y i j hi hj
  have hsub : ∀ {i}, (slots.free k x).holds k' i = some y → slots.holds k' i = some y := by
    intro i hi
    rw [free_holds] at hi
    split at hi
    · cases hi
    · exact hi
  exact h k' y i j (hsub hi) (hsub hj)

/-- A new slot holds nothing, or a variable that had none. -/
theorem Single.add (h : slots.Single) (hc : ∀ x, c = some x → slots.index? k x = none) :
    (slots.add k c).2.Single := by
  intro k' y i j hi hj
  rw [add_holds] at hi hj
  have hnone : ∀ {i}, k' = k → c = some y → slots.holds k' i ≠ some y := fun hk hy => by
    rw [hk]
    exact index?_eq_none.1 (hc y hy) _
  split at hi <;> split at hj
  · rename_i h1 h2
    rw [h1.2, h2.2]
  · rename_i h1 _
    exact absurd hj (hnone h1.1 hi)
  · rename_i _ h2
    exact absurd hi (hnone h2.1 hj)
  · exact h k' y i j hi hj

theorem Single.request {r : Request} (h : slots.Single) (hr : ∀ k x, r ≠ .add k (some x)) :
    (r.run slots).Single := by
  cases r with
  | add k c => exact h.add fun x hx => absurd (congrArg _ hx) (hr k x)
  | free k x => exact h.free k x
  | enter k x =>
    rcases enter_cases slots k x with heq | ⟨hx, heq⟩
    · rwa [Request.run, heq]
    · rw [Request.run, heq]
      exact h.add fun y hy => Option.some.inj hy ▸ hx

/-- The slots after the requests. -/
def run (slots : Slots) (rs : List Request) : Slots := rs.foldl Request.run slots

variable {r : Request} {rs : List Request}

theorem run_append (slots : Slots) (rs qs : List Request) :
    slots.run (rs ++ qs) = (slots.run rs).run qs := List.foldl_append

theorem run_map {α : Type} (slots : Slots) (f : α → Request) (as : List α) :
    slots.run (as.map f) = as.foldl (fun slots a => (f a).run slots) slots := List.foldl_map

theorem run_keeps {P : Slots → Prop} (hstep : ∀ slots, ∀ r ∈ rs, P slots → P (r.run slots))
    (h : P slots) : P (slots.run rs) := by
  induction rs generalizing slots with
  | nil => exact h
  | cons r rs ih =>
    exact ih (fun slots q hq => hstep slots q (by simp [hq])) (hstep slots r (by simp) h)

/-- The tables now and before each change, the latest first. -/
def history (slots : Slots) : List SlotTables := slots.tables :: slots.past

/-- The slots are edited by requests. Some of them may be freed if `frees` is true. -/
def Edits (frees : Prop) (a b : Slots) : Prop :=
  ∃ rs, b = a.run rs ∧ ∀ k x, .free k x ∈ rs → frees

namespace Edits

variable {frees : Prop} {d : Slots}

theorem refl (slots : Slots) : slots.Edits frees slots := ⟨[], rfl, by simp⟩

theorem trans (h : a.Edits frees b) (h' : b.Edits frees d) : a.Edits frees d := by
  obtain ⟨rs, rfl, hrs⟩ := h
  obtain ⟨qs, rfl, hqs⟩ := h'
  refine ⟨rs ++ qs, (run_append a rs qs).symm, fun k x hx => ?_⟩
  exact (List.mem_append.1 hx).elim (hrs k x) (hqs k x)

theorem induction {P : Slots → Prop} (h : a.Edits frees b) (ha : P a)
    (hadd : ∀ slots k c, P slots → P (slots.add k c).2)
    (hfree : frees → ∀ slots k x, P slots → P (slots.free k x)) : P b := by
  obtain ⟨rs, rfl, hrs⟩ := h
  refine run_keeps (fun slots r hr hslots => ?_) ha
  exact r.run_induction hslots (fun k c => hadd slots k c hslots) fun k x hx =>
    hfree (hrs k x (hx ▸ hr)) slots k x hslots

theorem history_suffix (h : a.Edits frees b) : a.history <:+ b.history :=
  h.induction (P := fun s => a.history <:+ s.history) List.suffix_rfl
    (fun slots k _ h => h.trans (by cases k <;> exact List.suffix_cons _ _))
    fun _ _ _ _ h => free_induction (P := fun s => a.history <:+ s.history) h fun _ =>
      h.trans (List.suffix_cons _ _)

theorem reserves (h : a.Edits frees b) (ha : a.Reserves) : b.Reserves :=
  h.induction ha (fun _ k c h => h.add k c) fun _ _ k x h => h.free k x

theorem tableSize_le (h : a.Edits frees b) (k : SlotKind) : a.tableSize k ≤ b.tableSize k :=
  h.induction (P := fun s => a.tableSize k ≤ s.tableSize k) le_rfl
    (fun _ _ _ h => Nat.le_trans h tableSize_le_add) fun _ _ _ _ h => tableSize_free.symm ▸ h

theorem kept (h : a.Edits frees b) (hfrees : ¬ frees) (hx : a.holds k i = some x) :
    b.holds k i = some x := by
  refine h.induction (P := fun s => s.holds k i = some x) hx (fun slots k' c hx => ?_)
    fun hv => absurd hv hfrees
  rw [add_holds, if_neg, hx]
  rintro ⟨rfl, rfl⟩
  rw [add_vacant] at hx
  cases hx

end Edits

/-- One comes from the other by requests. A new slot of a local is always for a name. -/
def ByName (a b : Slots) : Prop := ∃ rs, b = a.run rs ∧ ∀ c, .add .local c ∉ rs

theorem ByName.refl (slots : Slots) : slots.ByName slots := ⟨[], rfl, by simp⟩

theorem ByName.trans {d : Slots} (h : a.ByName b) (h' : b.ByName d) : a.ByName d := by
  obtain ⟨rs, rfl, hrs⟩ := h
  obtain ⟨qs, rfl, hqs⟩ := h'
  refine ⟨rs ++ qs, (run_append a rs qs).symm, fun c hc => ?_⟩
  exact (List.mem_append.1 hc).elim (hrs c) (hqs c)

/-- The table after any requests other than that for another slot of a variable. Each variable has
one slot, a request changes the index of no variable but the one it names, an index stays until its
variable is freed, and no size decreases. The reserved slot stays empty. -/
theorem run_slots (v : Version) (rs : List Request) (hrs : ∀ k x, .add k (some x) ∉ rs) :
    ((empty v).run rs).Single ∧
    (∀ (r : Request) k x, r.subject? ≠ some (k, x) →
      (r.run ((empty v).run rs)).index? k x = ((empty v).run rs).index? k x) ∧
    (∀ k x later, (∀ y, .add k (some y) ∉ later) → .free k x ∉ later →
      ((((empty v).run rs).enter k x).2.run later).index? k x =
        some (((empty v).run rs).enter k x).1.1) ∧
    (∀ k i x, ((empty v).run rs).holds k i = some x → i < ((empty v).run rs).tableSize k) ∧
    (∀ k later, ((empty v).run rs).tableSize k ≤ (((empty v).run rs).run later).tableSize k) ∧
    (v.has .splitStorage = true → ((empty v).run rs).local? 0 = none) := by
  refine ⟨?_, fun r k x hr => ?_, fun k x later hadd hfree => ?_, fun _ _ _ => holds_lt,
    fun k later => ?_, fun hv => ?_⟩
  · exact run_keeps (fun _ r hr h => h.request fun k x heq => hrs k x (heq ▸ hr)) (empty_single v)
  · exact index?_congr fun _ => Request.run_holds hr
  · refine run_keeps (P := fun s => s.index? k x = some _) (fun slots r hr h => ?_) enter_index?
    exact Request.keeps_index h (fun heq => hadd x (heq ▸ hr)) fun heq => hfree (heq ▸ hr)
  · exact Edits.tableSize_le (show Edits True _ _ from ⟨later, rfl, fun _ _ _ => trivial⟩) k
  · have hedits : (empty v).Edits True ((empty v).run rs) := ⟨rs, rfl, fun _ _ _ => trivial⟩
    obtain ⟨rest, statics, h⟩ := hedits.reserves (empty_reserves hv)
    rw [local?, h]
    rfl

/-- A freed slot is used again, and the index of the other variable stays. -/
theorem run_slots_refilled :
    let rs : List Request := [.enter .local ⟨0, "a", false⟩, .enter .static ⟨0, "a", false⟩,
      .free .local ⟨0, "a", false⟩, .add .local none, .add .static none]
    (∀ k x, .add k (some x) ∉ rs) ∧ ((empty .latestCommon).run rs).Single ∧
      ((((empty .latestCommon).run rs).enter .local ⟨1, "b", false⟩).2.run
        [.enter .local ⟨0, "a", false⟩]).index? .local ⟨1, "b", false⟩ = some 1 := by
  intro rs
  have hrs : ∀ k x, .add k (some x) ∉ rs := by simp [rs]
  obtain ⟨hsingle, -, hkept, -⟩ := run_slots .latestCommon rs hrs
  exact ⟨hrs, hsingle, hkept _ _ _ (by simp) (by simp)⟩

/-- The number of locals. -/
def live (slots : Slots) : Nat := slots.locals.length

/-- The number of locals at the time when there were most, before or after one of the requests. -/
def peak (slots : Slots) : List Request → Nat
  | [] => slots.live
  | r :: rs => max slots.live ((r.run slots).peak rs)

theorem live_le_peak (slots : Slots) (rs : List Request) : slots.live ≤ slots.peak rs := by
  cases rs
  · exact le_rfl
  · exact le_max_left _ _

/-- The number of locals at the time when there were most, now or before one of the changes. -/
def mostLive (slots : Slots) : Nat :=
  slots.history.foldr (fun tables n => max tables.locals.length n) 0

theorem live_le_mostLive (slots : Slots) : slots.live ≤ slots.mostLive := le_max_left _ _

theorem mostLive_request (slots : Slots) (r : Request) :
    (r.run slots).mostLive = max slots.mostLive (r.run slots).live := by
  have hchange (tables : SlotTables) (h : slots.tables.Within tables) :
      (slots.change tables h).mostLive = max slots.mostLive (slots.change tables h).live := by
    rw [max_comm]
    rfl
  refine r.run_induction (P := fun s => s.mostLive = max slots.mostLive s.live)
    (max_eq_left slots.live_le_mostLive).symm (fun k c => ?_) fun k x _ => ?_
  · cases k
    · exact hchange _ (slots.tables.within_addLocal c)
    · exact hchange _ (slots.tables.within_addStatic c)
  · exact free_induction (P := fun s => s.mostLive = max slots.mostLive s.live)
      (max_eq_left slots.live_le_mostLive).symm fun i => hchange _ _

theorem mostLive_run (slots : Slots) (rs : List Request) :
    (slots.run rs).mostLive = max slots.mostLive (slots.peak rs) := by
  induction rs generalizing slots with
  | nil => exact (max_eq_left slots.live_le_mostLive).symm
  | cons r rs ih =>
    have hlive := slots.live_le_mostLive
    have hpeak := live_le_peak (r.run slots) rs
    have hrest := ih (r.run slots)
    rw [mostLive_request] at hrest
    simp only [run, List.foldl_cons, peak] at hrest ⊢
    omega

theorem Reserves.localSize_eq {rest statics : List (Option Symbol)}
    (h : slots.tables = .split (none :: rest) statics) : slots.localSize = rest.length + 1 := by
  rw [slots.sizes.1, h]
  rfl

theorem Reserves.live_lt (h : slots.Reserves) : slots.live < slots.localSize := by
  obtain ⟨rest, statics, h⟩ := h
  rw [Reserves.localSize_eq h, live, locals, h]
  exact Nat.lt_succ_of_le (List.length_filterMap_le id rest)

theorem length_place {α : Type} (x : α) (cells : List (Option α)) : (place (some x) cells).length =
    max cells.length ((place (some x) cells).filterMap id).length := by
  induction cells with
  | nil => rfl
  | cons c cells ih =>
    cases c with
    | none =>
      have := List.length_filterMap_le id cells
      show cells.length + 1 = max (cells.length + 1) ((cells.filterMap id).length + 1)
      omega
    | some y =>
      show (place (some x) cells).length + 1 =
        max (cells.length + 1) (((place (some x) cells).filterMap id).length + 1)
      omega

theorem Reserves.localSize_request (h : slots.Reserves) (hr : ∀ c, r ≠ .add .local c) :
    (r.run slots).localSize = max slots.localSize ((r.run slots).live + 1) := by
  have hlive := (r.reserves h).live_lt
  by_cases hsize : (r.run slots).localSize = slots.localSize
  · omega
  · -- Only a local that is new needs room.
    have hstatic (c : Option Symbol) : (slots.add .static c).2.localSize = slots.localSize := by
      obtain ⟨rest, statics, h⟩ := h
      have htables : (slots.add .static c).2.tables = .split (none :: rest) (statics ++ [c]) := by
        simp [Slots.add, addStatic, change, h, SlotTables.addStatic]
      rw [Reserves.localSize_eq h, Reserves.localSize_eq htables]
    rcases r with ⟨_ | _, c⟩ | ⟨_ | _, x⟩ | ⟨k, x⟩
    · exact absurd rfl (hr c)
    · exact absurd (hstatic c) hsize
    · rcases enter_cases slots .local x with heq | ⟨-, heq⟩
      · exact absurd (by rw [Request.run, heq]) hsize
      · obtain ⟨rest, statics, h⟩ := h
        have hlength := length_place x rest
        have htables : (slots.add .local (some x)).2.tables =
            .split (none :: place (some x) rest) statics := by
          simp [Slots.add, addLocal, change, h, SlotTables.addLocal]
        rw [Request.run, heq, Reserves.localSize_eq htables, Reserves.localSize_eq h, live, locals,
          htables]
        show (place (some x) rest).length + 1 =
          max (rest.length + 1) (((place (some x) rest).filterMap id).length + 1)
        omega
    · rcases enter_cases slots .static x with heq | ⟨-, heq⟩
      · exact absurd (by rw [Request.run, heq]) hsize
      · exact absurd (by rw [Request.run, heq, hstatic]) hsize
    · exact absurd (show (Slots.free _ k x).tableSize .local = _ from tableSize_free) hsize

theorem Reserves.localSize_run (h : slots.Reserves) (hrs : ∀ c, .add .local c ∉ rs) :
    (slots.run rs).localSize = max slots.localSize (slots.peak rs + 1) := by
  induction rs generalizing slots with
  | nil =>
    have := h.live_lt
    simp only [run, List.foldl_nil, peak]
    omega
  | cons r rs ih =>
    have hlive := h.live_lt
    have hpeak := live_le_peak (r.run slots) rs
    have hfirst := h.localSize_request (r := r) fun c hr => hrs c (hr ▸ List.mem_cons_self)
    have hrest := ih (r.reserves h) fun c hc => hrs c (List.mem_cons_of_mem _ hc)
    simp only [run, List.foldl_cons, peak] at hrest ⊢
    omega

theorem localSize_run_empty {v : Version} (hv : v.has .splitStorage = true)
    (hrs : ∀ c, .add .local c ∉ rs) : ((empty v).run rs).localSize = 1 + (empty v).peak rs := by
  have hsize : (empty v).localSize = 1 := by rw [empty, if_pos hv]
  rw [(empty_reserves hv).localSize_run hrs, hsize]
  omega

theorem ByName.localSize {v : Version} (hv : v.has .splitStorage = true)
    (h : (empty v).ByName slots) : slots.localSize = 1 + slots.mostLive := by
  obtain ⟨rs, rfl, hrs⟩ := h
  have hpeak := live_le_peak (empty v) rs
  have hempty : (empty v).mostLive = 0 := by rw [empty, if_pos hv]; rfl
  rw [localSize_run_empty hv hrs, mostLive_run, hempty]
  omega

end Adhoc.Slots
