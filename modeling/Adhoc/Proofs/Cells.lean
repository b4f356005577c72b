import Adhoc.Slots
import Mathlib.Data.Nat.Find

namespace Adhoc.Slots

section

variable {α : Type} {cells : List (Option α)}

/-- What a cell holds; nothing beyond the last one. -/
def cell (cells : List (Option α)) (i : Nat) : Option α := cells[i]?.join

theorem cell_cons_succ (c : Option α) (cells : List (Option α)) (i : Nat) :
    cell (c :: cells) (i + 1) = cell cells i := rfl

theorem cell_eq_none {i : Nat} (h : cells.length ≤ i) : cell cells i = none := by
  simp [cell, List.getElem?_eq_none h]

theorem cell_append (cells : List (Option α)) (c : Option α) (i : Nat) :
    cell (cells ++ [c]) i = if i = cells.length then c else cell cells i := by
  rcases Nat.lt_trichotomy i cells.length with h | rfl | h
  · simp [cell, List.getElem?_append_left h, Nat.ne_of_lt h]
  · simp [cell]
  · rw [if_neg (Nat.ne_of_gt h), cell_eq_none (Nat.le_of_lt h), cell_eq_none (by simp; omega)]

theorem cell_set (cells : List (Option α)) (k i : Nat) :
    cell (cells.set k none) i = if i = k then none else cell cells i := by
  simp only [cell, List.getElem?_set]
  by_cases h : k = i
  · subst h
    by_cases hk : k < cells.length <;> simp [hk]
  · simp [h, Ne.symm h]

theorem cell_firstEmpty (cells : List (Option α)) : cell cells (firstEmpty cells) = none := by
  induction cells with
  | nil => rfl
  | cons c cells ih =>
    cases c with
    | none => rfl
    | some a =>
      simp only [firstEmpty, List.findIdx_cons, Option.isNone_some, cond_false]
      exact ih

theorem cell_place (cells : List (Option α)) (c : Option α) (i : Nat) :
    cell (place c cells) i = if i = firstEmpty cells then c else cell cells i := by
  induction cells generalizing i with
  | nil => exact cell_append [] c i
  | cons d cells ih =>
    cases d with
    | none => cases i <;> rfl
    | some a =>
      have hfirst : firstEmpty (some a :: cells) = firstEmpty cells + 1 := by
        simp [firstEmpty, List.findIdx_cons]
      cases i with
      | zero => simp [place, hfirst, cell]
      | succ i => simp [place, hfirst, cell_cons_succ, ih]

theorem findIdx?_cell [BEq α] [LawfulBEq α] {a : α} {i : Nat} :
    cells.findIdx? (· == some a) = some i ↔
      cell cells i = some a ∧ ∀ j < i, cell cells j ≠ some a := by
  rw [List.findIdx?_eq_some_iff_getElem]
  constructor
  · rintro ⟨hi, ha, hb⟩
    refine ⟨by simpa [cell, hi] using ha, fun j hj => ?_⟩
    simpa [cell, Nat.lt_trans hj hi] using hb j hj
  · rintro ⟨ha, hb⟩
    have hi : i < cells.length := by
      by_contra hn
      simp [cell_eq_none (not_lt.1 hn)] at ha
    refine ⟨hi, by simpa [cell, hi] using ha, fun j hj => ?_⟩
    simpa [cell, Nat.lt_trans hj hi] using hb j hj

end

/-- The symbol of a cell that is shared by locals and statics, if it is of the given kind. -/
def ofKind (kind : SlotKind) : SlotKind × Symbol → Option Symbol
  | (k, x) => if k = kind then some x else none

/-- The local in the slot. -/
def local? (slots : Slots) (i : Nat) : Option Symbol :=
  match slots.tables with
  | .split locals _ => cell locals i
  | .unified cells => (cell cells i).bind (ofKind .local)

/-- The static in the slot. -/
def static? (slots : Slots) (i : Nat) : Option Symbol :=
  match slots.tables with
  | .split _ statics => cell statics i
  | .unified cells => (cell cells i).bind (ofKind .static)

theorem ofKind_eq_some {kind : SlotKind} {c : Option (SlotKind × Symbol)} {x : Symbol} :
    c.bind (ofKind kind) = some x ↔ c = some (kind, x) := by
  rcases c with _ | ⟨k, y⟩
  · simp
  · simp only [Option.bind_some, ofKind]
    by_cases hk : k = kind <;> simp [hk]

variable {α : Type} {slots : Slots} {x y : Symbol} {i j : Nat}

theorem localIndex?_eq_some : slots.localIndex? x = some i ↔
    slots.local? i = some x ∧ ∀ j < i, slots.local? j ≠ some x := by
  rcases slots with ⟨⟨locals, statics⟩ | cells, _⟩
  · exact findIdx?_cell
  · simp only [local?, ne_eq, ofKind_eq_some]
    exact findIdx?_cell

theorem staticIndex?_eq_some : slots.staticIndex? x = some i ↔
    slots.static? i = some x ∧ ∀ j < i, slots.static? j ≠ some x := by
  rcases slots with ⟨⟨locals, statics⟩ | cells, _⟩
  · exact findIdx?_cell
  · simp only [static?, ne_eq, ofKind_eq_some]
    exact findIdx?_cell

theorem index_exists {f : Nat → Option Symbol} (h : f j = some x) :
    ∃ i, f i = some x ∧ ∀ k < i, f k ≠ some x := by
  classical
  have hex : ∃ i, f i = some x := ⟨j, h⟩
  exact ⟨Nat.find hex, Nat.find_spec hex, fun k hk => Nat.find_min hex hk⟩

theorem index_eq_none {f : Nat → Option Symbol} {index : Option Nat}
    (h : ∀ i, index = some i ↔ f i = some x ∧ ∀ j < i, f j ≠ some x) :
    index = none ↔ ∀ j, f j ≠ some x := by
  constructor
  · rintro rfl j hj
    obtain ⟨i, hi⟩ := index_exists hj
    cases (h i).2 hi
  · intro hf
    cases index with
    | none => rfl
    | some i => exact absurd ((h i).1 rfl).1 (hf i)

theorem localIndex?_eq_none : slots.localIndex? x = none ↔ ∀ j, slots.local? j ≠ some x :=
  index_eq_none fun _ => localIndex?_eq_some

theorem staticIndex?_eq_none : slots.staticIndex? x = none ↔ ∀ j, slots.static? j ≠ some x :=
  index_eq_none fun _ => staticIndex?_eq_some

theorem hasLocal_iff : slots.hasLocal x = true ↔ ∃ j, slots.local? j = some x := by
  rw [hasLocal, Option.isSome_iff_ne_none, ne_eq, localIndex?_eq_none]
  push Not
  rfl

theorem localIndex?_congr {slots' : Slots} (h : slots.local? = slots'.local?) :
    slots.localIndex? x = slots'.localIndex? x := by
  cases hi : slots'.localIndex? x with
  | none => rwa [localIndex?_eq_none, h, ← localIndex?_eq_none]
  | some i => rwa [localIndex?_eq_some, h, ← localIndex?_eq_some]

theorem mem_locals : x ∈ slots.locals ↔ ∃ j, slots.local? j = some x := by
  rcases slots with ⟨⟨cells, _⟩ | cells, _⟩
  · simp only [Slots.locals, SlotTables.locals, local?, cell, Option.join_eq_some_iff,
      ← List.mem_iff_getElem?]
    simp [List.mem_filterMap]
  · simp only [Slots.locals, SlotTables.locals, local?, ofKind_eq_some, cell, List.mem_filterMap,
      Option.join_eq_some_iff]
    constructor
    · rintro ⟨c, hc, hx⟩
      obtain ⟨j, hj⟩ := List.mem_iff_getElem?.1 hc
      split at hx <;> simp only [Option.some.injEq, reduceCtorEq] at hx
      exact ⟨j, hx ▸ hj⟩
    · rintro ⟨j, hj⟩
      exact ⟨_, List.mem_of_getElem? hj, rfl⟩

theorem addLocal_static? (c : Option Symbol) : (slots.addLocal c).2.static? = slots.static? := by
  funext i
  rcases slots with ⟨⟨_ | ⟨r, rest⟩, statics⟩ | cells, _⟩
  · rfl
  · rfl
  · simp only [addLocal, SlotTables.addLocal, change, static?, cell_place]
    split
    · rename_i h
      subst h
      rw [cell_firstEmpty]
      cases c <;> rfl
    · rfl

theorem addLocal_local? (c : Option Symbol) (i : Nat) : (slots.addLocal c).2.local? i =
    if i = (slots.addLocal c).1 then c else slots.local? i := by
  rcases slots with ⟨⟨_ | ⟨r, rest⟩, statics⟩ | cells, _⟩
  · exact cell_append [] c i
  · cases i with
    | zero => simp [addLocal, SlotTables.addLocal, change, local?, cell]
    | succ i =>
      simp only [addLocal, SlotTables.addLocal, change, local?, cell_cons_succ, cell_place,
        Nat.add_right_cancel_iff]
  · simp only [addLocal, SlotTables.addLocal, change, local?, cell_place]
    by_cases h : i = firstEmpty cells
    · cases c <;> simp [h, ofKind]
    · simp [h]

theorem addLocal_empty (c : Option Symbol) : slots.local? (slots.addLocal c).1 = none := by
  rcases slots with ⟨⟨_ | ⟨r, rest⟩, statics⟩ | cells, _⟩
  · rfl
  · exact cell_firstEmpty rest
  · simp [addLocal, SlotTables.addLocal, local?, cell_firstEmpty]

theorem addLocal_none_local? : (slots.addLocal none).2.local? = slots.local? := by
  funext i
  rw [addLocal_local?]
  split
  · rename_i h
    rw [h, addLocal_empty]
  · rfl

theorem addStatic_local? (c : Option Symbol) : (slots.addStatic c).2.local? = slots.local? := by
  funext i
  rcases slots with ⟨⟨locals, statics⟩ | cells, _⟩
  · rfl
  · simp only [addStatic, SlotTables.addStatic, change, local?, cell_append]
    split
    · rename_i h
      rw [h, cell_eq_none le_rfl]
      cases c <;> rfl
    · rfl

theorem addStatic_static? (c : Option Symbol) (i : Nat) : (slots.addStatic c).2.static? i =
    if i = (slots.addStatic c).1 then c else slots.static? i := by
  rcases slots with ⟨⟨locals, statics⟩ | cells, _⟩
  · exact cell_append statics c i
  · simp only [addStatic, SlotTables.addStatic, change, static?, cell_append]
    by_cases h : i = cells.length
    · cases c <;> simp [h, ofKind]
    · simp [h]

theorem addStatic_empty (c : Option Symbol) (hi : (slots.addStatic c).1 ≤ i) :
    slots.static? i = none := by
  rcases slots with ⟨⟨locals, statics⟩ | cells, _⟩
  · exact cell_eq_none hi
  · simp [static?, cell_eq_none (show cells.length ≤ i from hi)]

theorem addLocal_localIndex? (h : slots.localIndex? x = none) :
    (slots.addLocal (some x)).2.localIndex? x = some (slots.addLocal (some x)).1 := by
  refine localIndex?_eq_some.2 ⟨by rw [addLocal_local?, if_pos rfl], fun j hj => ?_⟩
  rw [addLocal_local?, if_neg (Nat.ne_of_lt hj)]
  exact localIndex?_eq_none.1 h j

theorem addStatic_staticIndex? (h : slots.staticIndex? x = none) :
    (slots.addStatic (some x)).2.staticIndex? x = some (slots.addStatic (some x)).1 := by
  refine staticIndex?_eq_some.2 ⟨by rw [addStatic_static?, if_pos rfl], fun j hj => ?_⟩
  rw [addStatic_static?, if_neg (Nat.ne_of_lt hj)]
  exact staticIndex?_eq_none.1 h j

theorem freeLocal_local? : (slots.freeLocal x).local? i =
    if slots.localIndex? x = some i then none else slots.local? i := by
  unfold freeLocal
  cases hk : slots.localIndex? x with
  | none => simp
  | some k =>
    rcases slots with ⟨⟨locals, statics⟩ | cells, _⟩ <;>
      simp only [clear, SlotTables.clear, change, local?, cell_set, Option.some.injEq, eq_comm (a := k)]
    split <;> rfl

theorem freeStatic_static? : (slots.freeStatic x).static? i =
    if slots.staticIndex? x = some i then none else slots.static? i := by
  unfold freeStatic
  cases hk : slots.staticIndex? x with
  | none => simp
  | some k =>
    rcases slots with ⟨⟨locals, statics⟩ | cells, _⟩ <;>
      simp only [clear, SlotTables.clear, change, static?, cell_set, Option.some.injEq, eq_comm (a := k)]
    split <;> rfl

theorem freeLocal_static? : (slots.freeLocal x).static? = slots.static? := by
  funext i
  unfold freeLocal
  cases hk : slots.localIndex? x with
  | none => rfl
  | some k =>
    rcases slots with ⟨⟨locals, statics⟩ | cells, _⟩
    · rfl
    · simp only [clear, SlotTables.clear, change, static?, cell_set]
      split
      · rename_i h
        subst h
        have := (localIndex?_eq_some.1 hk).1
        simp only [local?, ofKind_eq_some] at this
        simp [this, ofKind]
      · rfl

theorem freeStatic_local? : (slots.freeStatic x).local? = slots.local? := by
  funext i
  unfold freeStatic
  cases hk : slots.staticIndex? x with
  | none => rfl
  | some k =>
    rcases slots with ⟨⟨locals, statics⟩ | cells, _⟩
    · rfl
    · simp only [clear, SlotTables.clear, change, local?, cell_set]
      split
      · rename_i h
        subst h
        have := (staticIndex?_eq_some.1 hk).1
        simp only [static?, ofKind_eq_some] at this
        simp [this, ofKind]
      · rfl

theorem foldl_view {β : Type} {view : Slots → β} {f : Slots → α → Slots}
    (h : ∀ slots a, view (f slots a) = view slots) (as : List α) :
    view (as.foldl f slots) = view slots := by
  induction as generalizing slots with
  | nil => rfl
  | cons a as ih => rw [List.foldl_cons, ih, h]

theorem empty_local? (v : Version) (i : Nat) : (empty v).local? i = none := by
  unfold empty
  split
  · cases i <;> rfl
  · rfl

theorem findOrAddLocal_local? (h : (slots.findOrAddLocal x).2.local? i = some y) :
    y = x ∨ slots.local? i = some y := by
  unfold findOrAddLocal at h
  cases hx : slots.localIndex? x with
  | some k => exact .inr (by simpa only [hx] using h)
  | none =>
    simp only [hx, addLocal_local?] at h
    split at h
    · exact .inl (Option.some.inj h).symm
    · exact .inr h

/-- The slot of the first local: the split layout reserves slot 0. -/
def firstLocal (v : Version) : Nat := if v.has .splitStorage then 1 else 0

/-- The given symbols are the locals, in the first slots and in their order, and there is nothing
else. -/
def Lists (slots : Slots) (v : Version) (xs : List Symbol) : Prop :=
  ∃ n, slots.tables =
    if v.has .splitStorage then .split (none :: (xs.map some ++ List.replicate n none)) []
    else .unified ((xs.map (SlotKind.local, ·)).map some ++ List.replicate n none)

theorem place_some (xs : List α) (a : α) (n : Nat) :
    place (some a) (xs.map some ++ List.replicate n none) =
      (xs ++ [a]).map some ++ List.replicate (n - 1) none := by
  induction xs with
  | nil => cases n <;> rfl
  | cons x xs ih => simp [place, ih]

theorem place_none (xs : List α) (n : Nat) :
    ∃ m, place none (xs.map some ++ List.replicate n none) = xs.map some ++ List.replicate m none := by
  induction xs with
  | nil => cases n with
    | zero => exact ⟨1, rfl⟩
    | succ n => exact ⟨n + 1, rfl⟩
  | cons x xs ih =>
    obtain ⟨m, hm⟩ := ih
    exact ⟨m, by simp [place, hm]⟩

theorem cell_map_some (xs : List α) (n i : Nat) :
    cell (xs.map some ++ List.replicate n none) i = xs[i]? := by
  induction xs generalizing i with
  | nil => by_cases h : i < n <;> simp [cell, h]
  | cons x xs ih =>
    cases i with
    | zero => rfl
    | succ i => simpa [cell_cons_succ] using ih i

theorem empty_lists (v : Version) : (empty v).Lists v [] := by
  refine ⟨0, ?_⟩
  unfold empty
  split <;> rfl

variable {v : Version} {xs : List Symbol}

theorem Lists.addLocal (h : slots.Lists v xs) (x : Symbol) :
    (slots.addLocal (some x)).2.Lists v (xs ++ [x]) := by
  obtain ⟨n, h⟩ := h
  refine ⟨n - 1, ?_⟩
  simp only [Slots.addLocal, change, h]
  split
  · rw [SlotTables.addLocal, place_some]
  · have hplace := place_some (xs.map (SlotKind.local, ·)) (SlotKind.local, x) n
    rw [← List.map_singleton (f := (SlotKind.local, ·)), ← List.map_append] at hplace
    exact congrArg SlotTables.unified hplace

/-- A slot without a name comes behind the locals. -/
theorem Lists.reserve (h : slots.Lists v xs) : (slots.addLocal none).2.Lists v xs := by
  obtain ⟨n, h⟩ := h
  by_cases hv : v.has .splitStorage
  · obtain ⟨m, hm⟩ := place_none xs n
    exact ⟨m, by simp [hv, Slots.addLocal, change, h, SlotTables.addLocal, hm]⟩
  · obtain ⟨m, hm⟩ := place_none (xs.map (SlotKind.local, ·)) n
    exact ⟨m, by simpa [hv, Slots.addLocal, change, h, SlotTables.addLocal] using hm⟩

theorem Lists.local? (h : slots.Lists v xs) (i : Nat) :
    slots.local? (firstLocal v + i) = xs[i]? := by
  obtain ⟨n, h⟩ := h
  by_cases hv : v.has .splitStorage
  · rw [Slots.local?, h, if_pos hv, firstLocal, if_pos hv, Nat.add_comm]
    exact (cell_cons_succ ..).trans (cell_map_some ..)
  · rw [Slots.local?, h, if_neg hv, firstLocal, if_neg hv, Nat.zero_add]
    simp only [cell_map_some, List.getElem?_map]
    cases xs[i]? <;> rfl

theorem Lists.localIndex? (h : slots.Lists v xs) (hxs : xs.Nodup) (hi : xs[i]? = some x) :
    slots.localIndex? x = some (firstLocal v + i) := by
  refine localIndex?_eq_some.2 ⟨(h.local? i).trans hi, fun j hj hx => ?_⟩
  have hfirst : firstLocal v ≤ j := by
    by_contra hn
    obtain ⟨n, h⟩ := h
    by_cases hv : v.has .splitStorage
    · obtain rfl : j = 0 := by simp [firstLocal, hv] at hn; exact hn
      simp [hv, Slots.local?, h, cell] at hx
    · simp [firstLocal, hv] at hn
  obtain ⟨k, rfl⟩ := Nat.exists_eq_add_of_le hfirst
  rw [h.local? k] at hx
  have hk : k < xs.length := (List.getElem?_eq_some_iff.1 hx).1
  have := (List.getElem?_inj hk hxs).1 (hx.trans hi.symm)
  omega

end Adhoc.Slots
