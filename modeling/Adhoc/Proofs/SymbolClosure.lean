import Adhoc.Proofs.Writable

namespace Adhoc

open List

/-- The names that stand one after the other from `start` on, each with its length in front, and the
position after them. -/
def readNames (bytes : List UInt8) : Nat → Nat → Option (List (List UInt8) × Nat)
  | 0, start => some ([], start)
  | count + 1, start =>
    match Varint.decode? bytes start with
    | none => none
    | some (length, start) =>
      let name := (bytes.drop start).take length
      if name.length = length then
        (readNames bytes count (start + length)).map fun (names, finish) => (name :: names, finish)
      else none

/-- The names of the table at `start`, which has their number in front. -/
def readTable (bytes : List UInt8) (start : Nat) : Option (List (List UInt8) × Nat) :=
  match Varint.decode? bytes start with
  | none => none
  | some (count, start) => readNames bytes count start

section

variable {bytes rest : List UInt8} {start finish : Nat}

theorem drop_past {front : List UInt8} (h : bytes.drop start = front ++ rest) :
    bytes.drop (start + front.length) = rest := by
  rw [← drop_drop, h, drop_left]

theorem readNames_entries {xs : List Symbol} (hx : ∀ x ∈ xs, x.bytes.length < 2 ^ 64)
    (h : bytes.drop start = xs.flatMap Format.tableEntry ++ rest) :
    readNames bytes xs.length start =
      some (xs.map Symbol.bytes, start + (xs.flatMap Format.tableEntry).length) := by
  induction xs generalizing start with
  | nil => rfl
  | cons x xs ih =>
    rw [forall_mem_cons] at hx
    rw [flatMap_cons, Format.tableEntry, append_assoc, append_assoc] at h
    have hname := drop_past h
    have hrest := ih hx.2 (drop_past hname)
    simp only [length_cons, readNames, Varint.decode?_of_append hx.1 h, hname, take_left,
      if_true, hrest, Option.map_some, map_cons, flatMap_cons, Format.tableEntry,
      length_append, ← Nat.add_assoc]

theorem readNames_lt {count : Nat} {names : List (List UInt8)}
    (h : readNames bytes count start = some (names, finish)) :
    names.length = count ∧ ∀ name ∈ names, name.length < 2 ^ 64 := by
  induction count generalizing start names finish with
  | zero =>
    obtain rfl := congrArg Prod.fst (Option.some.inj h)
    exact ⟨rfl, fun _ hname => nomatch hname⟩
  | succ count ih =>
    unfold readNames at h
    split at h
    · cases h
    · rename_i length start' hdecode
      rw [Option.ite_none_right_eq_some] at h
      obtain ⟨hlength, h⟩ := h
      obtain ⟨⟨names', finish'⟩, hrest, hnames⟩ := Option.map_eq_some_iff.1 h
      obtain rfl := congrArg Prod.fst hnames
      obtain ⟨hcount, hlt⟩ := ih hrest
      refine ⟨congrArg (· + 1) hcount, forall_mem_cons.2 ⟨?_, hlt⟩⟩
      rw [hlength]
      exact Varint.decode?_lt hdecode

theorem readTable_lt {names : List (List UInt8)} (h : readTable bytes start = some (names, finish)) :
    names.length < 2 ^ 64 ∧ ∀ name ∈ names, name.length < 2 ^ 64 := by
  unfold readTable at h
  split at h
  · cases h
  · rename_i count start' hdecode
    obtain ⟨rfl, hlt⟩ := readNames_lt h
    exact ⟨Varint.decode?_lt hdecode, hlt⟩

/-- A table is read back if its size and the lengths of its names are machine words. -/
theorem readTable_iff {t : SymbolTable} (h : bytes.drop start = Format.symbolTable t ++ rest) :
    readTable bytes start = some (t.stored, start + (Format.symbolTable t).length) ↔
      Format.HoldsTable t := by
  constructor
  · intro hread
    obtain ⟨hsize, hnames⟩ := readTable_lt hread
    rw [SymbolTable.stored, length_map, Array.length_toList] at hsize
    exact ⟨hsize, fun x hx => hnames _ (mem_map_of_mem (Array.mem_toList_iff.2 hx))⟩
  · rintro ⟨hsize, hnames⟩
    rw [Format.symbolTable, append_assoc] at h
    have hentries := readNames_entries (fun x hx => hnames x (Array.mem_toList_iff.1 hx)) (drop_past h)
    rw [Array.length_toList] at hentries
    simp only [readTable, Varint.decode?_of_append hsize h, hentries, SymbolTable.stored,
      Format.symbolTable, length_append, Nat.add_assoc]

end

theorem Version.has_symbolTable {v : Version} (h : 9 ≤ v.number) : v.has .symbolTable = true := by
  simp [has, Capability.span, h, v.supported.2]

theorem Format.header_drop {f : Format} (hv : 9 ≤ f.version.number) (t : SymbolTable)
    (body : List UInt8) : (f.header t ++ body).drop 8 = symbolTable t ++ body := by
  have hmagic : magic.length = 4 := by decide +kernel
  rw [header, if_pos (Version.has_symbolTable hv), append_assoc _ (symbolTable t)]
  exact drop_left' (by simp [hmagic, versionDigits])

/-- The symbols of a compiled script are the entries of its table, which are numbered in order and
have names of their own, and the table is read back from the bytes. -/
theorem compiled_symbols_closed {o : Options} {sources : Sources} {depth : Nat} {p : Program}
    {source : String} {script : Script} (hv : 9 ≤ o.version.number)
    (h : p.compile o sources depth source = .ok script) :
    ((∃ bytes, script.bytes = .ok bytes) ↔
      ∀ g ∈ script.frame.preorder, ∀ ins ∈ g.code, ins.operation.target? ≠ some none) ∧
    (∀ bytes, script.bytes = .ok bytes → ∃ finish,
      (readTable bytes 8 = some (script.symbols.entries.toList.map Symbol.bytes, finish) ↔
        Format.HoldsTable script.symbols) ∧
      script.frame.write script.format = .ok (bytes.drop finish)) ∧
    script.symbols.names.Nodup ∧
    (∀ (i : Nat) (x : Symbol), script.symbols.entries[i]? = some x → x.id = i) ∧
    ∀ g ∈ script.frame.preorder, ∀ x ∈ g.symbols,
      x.id < script.symbols.entries.size ∧ script.symbols.entries[x.id]? = some x := by
  obtain ⟨t, -, hsound, hframe, hsymbols, hformat⟩ := Program.compile_sound h
  have hwritten := Program.bytes_written h
  refine ⟨?_, fun bytes hb => ?_, ?_, ?_, fun g hg x hx => ?_⟩
  · rw [hwritten.exists_bytes_iff, script.frame.aimed_iff]
  · obtain ⟨body, hbody, rfl⟩ := Format.script_ok hb
    have hdrop := Format.header_drop (f := script.format) (hformat ▸ hv) script.symbols body
    exact ⟨_, readTable_iff hdrop, (drop_past hdrop).symm ▸ hbody⟩
  · rw [hsymbols]
    exact SymbolTable.names_nodup _
  · rw [hsymbols]
    exact hsound.table.ids
  · have hx : t.symbols.Lists x := (hsound.frame.finish g (hframe ▸ hg)).symbols x hx
    rw [hsymbols]
    exact ⟨(Array.getElem?_eq_some_iff.1 hx).1, hx⟩

/-- `function f(a) { return a.b; }` -/
def memberReader : Program where
  body := [.function {} ⟨some (.ident {} "f"), [.ident {} "a"], .stmt (.block {} [
    .returnValue {} (some (.attribute {} (.ident {} "a") (.ident {} "b") false))])⟩]

theorem memberReader_symbols_closed :
    ∃ script bytes, memberReader.compile {} noSources 0 "main" = .ok script ∧
      script.bytes = .ok bytes ∧ script.symbols.names.Nodup ∧
      ∀ g ∈ script.frame.preorder, ∀ x ∈ g.symbols,
        x.id < script.symbols.entries.size ∧ script.symbols.entries[x.id]? = some x := by
  have hok : ((memberReader.compile {} noSources 0 "main").toOption.bind
      fun script => script.bytes.toOption).isSome = true := by decide +kernel
  cases h : memberReader.compile {} noSources 0 "main" with
  | error e =>
    rw [h] at hok
    cases hok
  | ok script =>
    obtain ⟨-, -, hnodup, -, hclosed⟩ := compiled_symbols_closed (by decide) h
    cases hb : script.bytes with
    | error d => simp [h, Except.toOption, hb] at hok
    | ok bytes => exact ⟨script, bytes, rfl, hb, hnodup, hclosed⟩

end Adhoc
