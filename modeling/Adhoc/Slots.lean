import Adhoc.Version
import Adhoc.Symbol

namespace Adhoc

inductive SlotKind
  | local
  | static
deriving DecidableEq, Repr

namespace Slots

/-- Puts `x` into the first empty cell, at the end if there is none. -/
def place {α : Type} (x : Option α) : List (Option α) → List (Option α)
  | [] => [x]
  | none :: rest => x :: rest
  | some y :: rest => some y :: place x rest

def firstEmpty {α : Type} (cells : List (Option α)) : Nat := cells.findIdx Option.isNone

/-- The number of cells up to the last occupied one. -/
def occupied {α : Type} (cells : List (Option α)) : Nat :=
  (cells.reverse.dropWhile Option.isNone).length

/-- As `occupied`, with cell 0 counted as taken. -/
def rewind {α : Type} : List (Option α) → Nat
  | [] => 0
  | _ :: rest => 1 + occupied rest

theorem length_le_place {α : Type} (x : Option α) (cells : List (Option α)) :
    cells.length ≤ (place x cells).length := by
  induction cells with
  | nil => simp [place]
  | cons y cells ih => cases y <;> simp [place, ih]

end Slots

open Slots

/-- The tables of a frame's variables. In the split layout locals and statics have tables of their
own and local slot 0 stays reserved. In the unified layout they share one. A freed slot is emptied,
never removed, so an index that was handed out keeps its meaning. -/
inductive SlotTables
  | split (locals statics : List (Option Symbol))
  | unified (cells : List (Option (SlotKind × Symbol)))
deriving DecidableEq, Repr

namespace SlotTables

def addLocal (symbol : Option Symbol) : SlotTables → Nat × SlotTables
  | .split (reserved :: rest) statics =>
    (firstEmpty rest + 1, .split (reserved :: place symbol rest) statics)
  | .split [] statics => (0, .split [symbol] statics)
  | .unified cells => (firstEmpty cells, .unified (place (symbol.map (.local, ·)) cells))

/-- Statics never take a freed slot, and the same symbol may be added again. -/
def addStatic (symbol : Option Symbol) : SlotTables → Nat × SlotTables
  | .split locals statics => (statics.length, .split locals (statics ++ [symbol]))
  | .unified cells => (cells.length, .unified (cells ++ [symbol.map (.static, ·)]))

def localIndex? (tables : SlotTables) (symbol : Symbol) : Option Nat :=
  match tables with
  | .split locals _ => locals.findIdx? (· == some symbol)
  | .unified cells => cells.findIdx? (· == some (.local, symbol))

def staticIndex? (tables : SlotTables) (symbol : Symbol) : Option Nat :=
  match tables with
  | .split _ statics => statics.findIdx? (· == some symbol)
  | .unified cells => cells.findIdx? (· == some (.static, symbol))

/-- Empties a slot. -/
def clear : SlotKind → Nat → SlotTables → SlotTables
  | .local, i, .split locals statics => .split (locals.set i none) statics
  | .static, i, .split locals statics => .split locals (statics.set i none)
  | _, i, .unified cells => .unified (cells.set i none)

/-- The symbols that occupy local slots, in slot order. -/
def locals : SlotTables → List Symbol
  | .split locals _ => locals.filterMap id
  | .unified cells => cells.filterMap fun
    | some (.local, s) => some s
    | _ => none

/-- One past the last occupied slot, slot 0 aside: what a `LEAVE` rewinds to. -/
def rewindIndex : SlotTables → Nat
  | .split locals _ => rewind locals
  | .unified cells => rewind cells

/-- The length of the table that locals are in. -/
def localLength : SlotTables → Nat
  | .split locals _ => locals.length
  | .unified cells => cells.length

/-- The length of the table that only statics are in. -/
def staticLength : SlotTables → Nat
  | .split _ statics => statics.length
  | .unified _ => 0

/-- No table of `b` is shorter than that of `a`. -/
def Within (a b : SlotTables) : Prop :=
  a.localLength ≤ b.localLength ∧ a.staticLength ≤ b.staticLength

theorem within_addLocal (tables : SlotTables) (symbol : Option Symbol) :
    tables.Within (tables.addLocal symbol).2 := by
  rcases tables with ⟨_ | ⟨reserved, rest⟩, statics⟩ | cells
  · simp [Within, addLocal, localLength, staticLength]
  · simp [Within, addLocal, localLength, staticLength, length_le_place]
  · simp [Within, addLocal, localLength, staticLength, length_le_place]

theorem within_addStatic (tables : SlotTables) (symbol : Option Symbol) :
    tables.Within (tables.addStatic symbol).2 := by
  cases tables <;> simp [Within, addStatic, localLength, staticLength]

theorem within_clear (tables : SlotTables) (kind : SlotKind) (i : Nat) :
    tables.Within (tables.clear kind i) := by
  cases tables <;> cases kind <;> simp [Within, clear, localLength, staticLength]

end SlotTables

/-- The variable slots of a frame. -/
structure Slots where
  tables : SlotTables
  /-- The largest length that the table of the locals has had. -/
  localSize : Nat
  /-- The largest length that the table of the statics has had, if it is another. -/
  staticSize : Nat
  /-- The tables before each change, the latest first. They are a record of the compilation: nothing
  in a container depends on them. -/
  past : List SlotTables := []
  sizes : localSize = tables.localLength ∧ staticSize = tables.staticLength := by exact ⟨rfl, rfl⟩
deriving DecidableEq, Repr

namespace Slots

section

variable {localSize staticSize : Nat} {past : List SlotTables}

/-- Slots in the split layout, as a pattern. -/
@[match_pattern]
abbrev split (locals statics : List (Option Symbol))
    {sizes : localSize = locals.length ∧ staticSize = statics.length} : Slots :=
  ⟨.split locals statics, localSize, staticSize, past, sizes⟩

/-- Slots in the unified layout, as a pattern. -/
@[match_pattern]
abbrev unified (cells : List (Option (SlotKind × Symbol)))
    {sizes : localSize = cells.length ∧ staticSize = 0} : Slots :=
  ⟨.unified cells, localSize, staticSize, past, sizes⟩

end

def empty (v : Version) : Slots :=
  if v.has .splitStorage then { tables := .split [none] [], localSize := 1, staticSize := 0 }
  else { tables := .unified [], localSize := 0, staticSize := 0 }

/-- The slots with other tables, none of which is shorter. -/
def change (slots : Slots) (tables : SlotTables) (h : slots.tables.Within tables) : Slots where
  tables := tables
  localSize := max slots.localSize tables.localLength
  staticSize := max slots.staticSize tables.staticLength
  past := slots.tables :: slots.past
  sizes := by
    rw [slots.sizes.1, slots.sizes.2]
    exact ⟨Nat.max_eq_right h.1, Nat.max_eq_right h.2⟩

def addLocal (symbol : Option Symbol) (slots : Slots) : Nat × Slots :=
  ((slots.tables.addLocal symbol).1,
    slots.change (slots.tables.addLocal symbol).2 (slots.tables.within_addLocal symbol))

def addStatic (symbol : Option Symbol) (slots : Slots) : Nat × Slots :=
  ((slots.tables.addStatic symbol).1,
    slots.change (slots.tables.addStatic symbol).2 (slots.tables.within_addStatic symbol))

def localIndex? (slots : Slots) (symbol : Symbol) : Option Nat := slots.tables.localIndex? symbol

def staticIndex? (slots : Slots) (symbol : Symbol) : Option Nat := slots.tables.staticIndex? symbol

def hasLocal (slots : Slots) (symbol : Symbol) : Bool := (slots.localIndex? symbol).isSome

def hasStatic (slots : Slots) (symbol : Symbol) : Bool := (slots.staticIndex? symbol).isSome

/-- The index of a local and whether its slot is new. -/
def findOrAddLocal (slots : Slots) (symbol : Symbol) : (Nat × Bool) × Slots :=
  match slots.localIndex? symbol with
  | some i => ((i, false), slots)
  | none => let (i, slots) := slots.addLocal (some symbol); ((i, true), slots)

/-- The index of a static and whether its slot is new. -/
def findOrAddStatic (slots : Slots) (symbol : Symbol) : (Nat × Bool) × Slots :=
  match slots.staticIndex? symbol with
  | some i => ((i, false), slots)
  | none => let (i, slots) := slots.addStatic (some symbol); ((i, true), slots)

def clear (slots : Slots) (kind : SlotKind) (i : Nat) : Slots :=
  slots.change (slots.tables.clear kind i) (slots.tables.within_clear kind i)

/-- Empties the first slot that holds the symbol as a local. -/
def freeLocal (slots : Slots) (symbol : Symbol) : Slots :=
  match slots.localIndex? symbol with
  | some i => slots.clear .local i
  | none => slots

/-- Empties the first slot that holds the symbol as a static. -/
def freeStatic (slots : Slots) (symbol : Symbol) : Slots :=
  match slots.staticIndex? symbol with
  | some i => slots.clear .static i
  | none => slots

def locals (slots : Slots) : List Symbol := slots.tables.locals

def rewindIndex (slots : Slots) : Nat := slots.tables.rewindIndex

/-- The size of the table of the statics. The unified layout has none. -/
def staticSize? (slots : Slots) : Option Nat :=
  match slots.tables with
  | .split _ _ => some slots.staticSize
  | .unified _ => none

end Slots
end Adhoc
