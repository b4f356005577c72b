import Std.Data.TreeMap.Lemmas

namespace Adhoc

structure Symbol where
  id : Nat
  name : String
  /-- A string constant written with hex escapes is stored one byte per character. -/
  bytePerChar : Bool
deriving DecidableEq, Repr

namespace Symbol

/-- The name of the method that the runtime calls for an operator. -/
def operatorMethod? : String → Option String
  | "==" => some "__eq__"
  | "!=" => some "__ne__"
  | ">=" => some "__ge__"
  | ">" => some "__gt__"
  | "<=" => some "__le__"
  | "<" => some "__lt__"
  | "!" => some "__not__"
  | "+" => some "__add__"
  | "-" => some "__sub__"
  | "*" => some "__mul__"
  | "/" => some "__div__"
  | "^" => some "__xor__"
  | "%" => some "__mod__"
  | "**" => some "__pow__"
  | "<<" => some "__lshift__"
  | ">>" => some "__rshift__"
  | "~" => some "__invert__"
  | "|" => some "__or__"
  | "&" => some "__and__"
  | "-@" => some "__uminus__"
  | "+@" => some "__uplus__"
  | "--@" => some "__pre_decr__"
  | "++@" => some "__pre_incr__"
  | "@--" => some "__post_decr__"
  | "@++" => some "__post_incr__"
  | _ => none

def canonical (name : String) : String := (operatorMethod? name).getD name

/-- The bytes under which a container stores the name. -/
def bytes (s : Symbol) : List UInt8 :=
  if s.bytePerChar then s.name.toList.map fun c => UInt8.ofNat c.toNat
  else s.name.toUTF8.toList

end Symbol

/-- The map gives every entry by its name, and nothing else. -/
def Indexes (lookup : Std.TreeMap String Nat) (entries : Array Symbol) : Prop :=
  ∀ name id, lookup[name]? = some id ↔ entries[id]?.map Symbol.name = some name

theorem indexes_empty : Indexes {} #[] := by
  intro name id
  simp

theorem Indexes.push {lookup : Std.TreeMap String Nat} {entries : Array Symbol} {x : Symbol}
    (h : Indexes lookup entries) (hnew : lookup[x.name]? = none) :
    Indexes (lookup.insert x.name entries.size) (entries.push x) := by
  intro name id
  rw [Std.TreeMap.getElem?_insert, Array.getElem?_push]
  by_cases hname : x.name = name
  · subst hname
    by_cases hid : id = entries.size
    · simp [hid]
    · have hold := (not_congr (h x.name id)).1 (by simp [hnew])
      simpa [hid, Ne.symm hid] using hold
  · by_cases hid : id = entries.size
    · have hold := (not_congr (h name id)).2 (by simp [hid])
      simpa [hid, hname] using hold
    · simpa [hid, hname] using h name id

/-- Names have ids 0, 1, 2, … in the order in which they are first seen. The symbol table of a
container is indexed by the ids. -/
structure SymbolTable where
  entries : Array Symbol := #[]
  /-- The ids of the names. -/
  lookup : Std.TreeMap String Nat := {}
  /-- How many temporaries have been named. -/
  temporaries : Nat := 0
  indexes : Indexes lookup entries := by exact indexes_empty

namespace SymbolTable

def find? (t : SymbolTable) (name : String) : Option Symbol :=
  t.lookup[name]?.bind fun id => t.entries[id]?

theorem lookup_eq_none {t : SymbolTable} {name : String} (h : t.find? name = none) :
    t.lookup[name]? = none := by
  cases hid : t.lookup[name]? with
  | none => rfl
  | some id =>
    have hentry := (t.indexes name id).1 hid
    rw [find?, hid, Option.bind_some] at h
    rw [h] at hentry
    cases hentry

/-- The entry of `name`, added if it is new. An entry keeps the flag it was first added with. -/
def intern (t : SymbolTable) (name : String) (bytePerChar : Bool) : Symbol × SymbolTable :=
  match h : t.find? name with
  | some s => (s, t)
  | none =>
    let s : Symbol := ⟨t.entries.size, name, bytePerChar⟩
    (s, { t with
      entries := t.entries.push s
      lookup := t.lookup.insert name t.entries.size
      indexes := t.indexes.push (x := s) (lookup_eq_none h) })

def internName (t : SymbolTable) (name : String) : Symbol × SymbolTable := t.intern name false

def internCanonical (t : SymbolTable) (name : String) : Symbol × SymbolTable :=
  t.intern (Symbol.canonical name) false

def get? (t : SymbolTable) (name : String) : Option Symbol := t.find? (Symbol.canonical name)

/-- The next temporary name `stem#n`; `n` counts over all stems. The name is not interned. -/
def nextTemporary (t : SymbolTable) (stem : String) : String × SymbolTable :=
  (s!"{stem}#{t.temporaries}", { t with temporaries := t.temporaries + 1 })

def names (t : SymbolTable) : List String := t.entries.toList.map (·.name)

end SymbolTable
end Adhoc
