import Adhoc.Proofs.Run

namespace Adhoc

variable {x y : Symbol} {name stem : String} {t t' : SymbolTable}

namespace Symbol

theorem canonical_canonical (name : String) : canonical (canonical name) = canonical name := by
  unfold canonical
  cases h : operatorMethod? name with
  | none => simp [h]
  | some method =>
    unfold operatorMethod? at h
    split at h <;> cases h <;> rfl

theorem canonical_of_mem (h : '#' ∈ name.toList) : canonical name = name := by
  have hnone : operatorMethod? name = none := by
    unfold operatorMethod?
    split
    case h_26 => rfl
    all_goals exact absurd h (by decide)
  rw [canonical, hnone, Option.getD_none]

/-- The name of a temporary with the stem. -/
def IsTemporary (stem name : String) : Prop := ∃ n : Nat, name = s!"{stem}#{n}"

theorem IsTemporary.canonical (h : IsTemporary stem name) : Symbol.canonical name = name := by
  obtain ⟨n, rfl⟩ := h
  refine canonical_of_mem ?_
  simp [toString]

end Symbol

namespace SymbolTable

/-- Every name that has an entry keeps it. -/
def Grows (t t' : SymbolTable) : Prop := ∀ ⦃name x⦄, t.find? name = some x → t'.find? name = some x

/-- The symbol is the entry of its name, and the name is no operator. -/
structure Knows (t : SymbolTable) (x : Symbol) : Prop where
  found : t.find? x.name = some x
  canonical : Symbol.canonical x.name = x.name

theorem Grows.refl (t : SymbolTable) : t.Grows t := fun _ _ h => h

theorem Grows.trans {t'' : SymbolTable} (h : t.Grows t') (h' : t'.Grows t'') : t.Grows t'' :=
  fun _ _ hx => h' (h hx)

theorem Knows.mono (h : t.Knows x) (hg : t.Grows t') : t'.Knows x :=
  ⟨hg h.found, h.canonical⟩

/-- A name has one symbol. -/
theorem Knows.eq (hx : t.Knows x) (hy : t.Knows y) (h : x.name = y.name) : x = y := by
  have := hy.found
  rw [← h, hx.found] at this
  exact Option.some.inj this

theorem find?_eq_some : t.find? name = some x ↔
    ∃ id : Nat, t.entries[id]? = some x ∧ x.name = name := by
  rw [find?, Option.bind_eq_some_iff]
  constructor
  · rintro ⟨id, hid, hx⟩
    have hname := (t.indexes name id).1 hid
    rw [hx] at hname
    exact ⟨id, hx, Option.some.inj hname⟩
  · rintro ⟨id, hx, rfl⟩
    exact ⟨id, (t.indexes x.name id).2 (by rw [hx]; rfl), hx⟩

theorem find?_eq_none : t.find? name = none ↔ name ∉ t.names := by
  rw [Option.eq_none_iff_forall_not_mem]
  simp only [Option.mem_def, find?_eq_some, names, List.mem_map, Array.mem_toList_iff,
    Array.mem_iff_getElem?]
  grind

theorem lookup_eq_some (name : String) (id : Nat) :
    t.lookup[name]? = some id ↔ t.names[id]? = some name := by
  rw [t.indexes, names, List.getElem?_map, Array.getElem?_toList]

theorem names_nodup (t : SymbolTable) : t.names.Nodup := by
  refine List.pairwise_iff_getElem.2 fun i j hi hj hij hname => ?_
  have hid := (lookup_eq_some _ i).2 (List.getElem?_eq_getElem hi)
  rw [hname, (lookup_eq_some _ j).2 (List.getElem?_eq_getElem hj)] at hid
  exact Nat.ne_of_gt hij (Option.some.inj hid)

theorem name_of_find? (h : t.find? name = some x) : x.name = name :=
  (find?_eq_some.1 h).choose_spec.2

theorem intern_of_some {bytePerChar : Bool} (h : t.find? name = some x) :
    t.intern name bytePerChar = (x, t) := by
  unfold intern
  split
  · rename_i y hy
    rw [h] at hy
    rw [Option.some.inj hy]
  · rename_i hnone
    rw [h] at hnone
    cases hnone

theorem intern_of_none (bytePerChar : Bool) (h : t.find? name = none) :
    let y : Symbol := ⟨t.entries.size, name, bytePerChar⟩
    (t.intern name bytePerChar).1 = y ∧
      (t.intern name bytePerChar).2.entries = t.entries.push y ∧
      (t.intern name bytePerChar).2.temporaries = t.temporaries := by
  unfold intern
  split
  · rename_i y hy
    rw [h] at hy
    cases hy
  · exact ⟨rfl, rfl, rfl⟩

theorem intern_found (t : SymbolTable) (name : String) (bytePerChar : Bool) :
    (t.intern name bytePerChar).2.find? name = some (t.intern name bytePerChar).1 := by
  cases h : t.find? name with
  | some x => rwa [intern_of_some h]
  | none =>
    obtain ⟨hsymbol, hentries, -⟩ := intern_of_none bytePerChar h
    refine find?_eq_some.2 ⟨t.entries.size, ?_, by rw [hsymbol]⟩
    rw [hentries, hsymbol, Array.getElem?_push_size]

theorem intern_grows (t : SymbolTable) (name : String) (bytePerChar : Bool) :
    t.Grows (t.intern name bytePerChar).2 := by
  intro n x hx
  cases h : t.find? name with
  | some y => rwa [intern_of_some h]
  | none =>
    obtain ⟨id, hid, hn⟩ := find?_eq_some.1 hx
    refine find?_eq_some.2 ⟨id, ?_, hn⟩
    have hlt := (Array.getElem?_eq_some_iff.1 hid).1
    rwa [(intern_of_none bytePerChar h).2.1, Array.getElem?_push, if_neg (Nat.ne_of_lt hlt)]

end SymbolTable

/-- The tables of the session grow. -/
structure Session.Widens (s t : Session) : Prop where
  symbols : s.symbols.Grows t.symbols
  folder : ∀ f, s.includeFolder = some f → t.includeFolder = some f

theorem Session.Widens.refl (s : Session) : s.Widens s := ⟨.refl _, fun _ h => h⟩

theorem Session.Widens.trans {s r t : Session} (h : s.Widens r) (h' : r.Widens t) : s.Widens t :=
  ⟨h.symbols.trans h'.symbols, fun f hf => h'.folder f (h.folder f hf)⟩

namespace Emit

theorem symbol_ok {s t : Session} (h : symbol name s = .ok (x, t)) :
    t.symbols.Knows x ∧ x.name = Symbol.canonical name ∧ s.Widens t ∧ t.frame = s.frame := by
  simp only [symbol, interned, SymbolTable.internCanonical, Except.ok.injEq, Prod.mk.injEq] at h
  obtain ⟨rfl, rfl⟩ := h
  have hfound := s.symbols.intern_found (Symbol.canonical name) false
  have hname := SymbolTable.name_of_find? hfound
  refine ⟨⟨hname.symm ▸ hfound, ?_⟩, hname, ⟨s.symbols.intern_grows _ _, fun _ hf => hf⟩, rfl⟩
  rw [hname, Symbol.canonical_canonical]

theorem symbol_known {s t : Session} (hx : s.symbols.Knows x) (h : symbol x.name s = .ok (y, t)) :
    y = x ∧ t = s := by
  have hfind : s.symbols.find? (Symbol.canonical x.name) = some x := hx.canonical.symm ▸ hx.found
  simp only [symbol, interned, SymbolTable.internCanonical, SymbolTable.intern_of_some hfind,
    Except.ok.injEq, Prod.mk.injEq] at h
  exact ⟨h.1.symm, h.2.symm⟩

theorem temporary_ok {s t : Session} (h : temporary stem s = .ok (x, t)) :
    Symbol.IsTemporary stem x.name ∧ s.Widens t ∧ t.frame = s.frame := by
  simp only [temporary, plainSymbol, interned, SymbolTable.internName, SymbolTable.nextTemporary,
    Except.ok.injEq, Prod.mk.injEq] at h
  obtain ⟨rfl, rfl⟩ := h
  refine ⟨⟨s.symbols.temporaries, ?_⟩, ⟨?_, fun _ hf => hf⟩, rfl⟩
  · exact SymbolTable.name_of_find? (SymbolTable.intern_found _ _ _)
  · exact fun _ _ hx => SymbolTable.intern_grows _ _ _ hx

end Emit
end Adhoc
