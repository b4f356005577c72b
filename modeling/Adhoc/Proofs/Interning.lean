import Adhoc.Proofs.Soundness
import Mathlib

namespace Adhoc.SymbolTable

open List

variable {t : SymbolTable} {x : Symbol}

/-- What may be asked of a table. -/
inductive Call
  | register (name : String) (canonicalize : Bool)
  | registerString (content : String) (bytePerChar : Bool)
  | temporary (stem : String)

namespace Call

/-- The text under which a call registers a symbol. -/
def text? : Call → Option String
  | register name canonicalize => some (if canonicalize then Symbol.canonical name else name)
  | registerString content _ => some content
  | temporary _ => none

/-- The symbol that a call gives, and the table after it. -/
def run (t : SymbolTable) : Call → Option Symbol × SymbolTable
  | register name true => (t.internCanonical name).map some id
  | register name false => (t.internName name).map some id
  | registerString content bytePerChar => (t.intern content bytePerChar).map some id
  | temporary stem => (none, (t.nextTemporary stem).2)

end Call

/-- The table after the calls. -/
def after (t : SymbolTable) (calls : List Call) : SymbolTable :=
  calls.foldl (fun t c => (c.run t).2) t

/-- A call registers its text or names a temporary. -/
theorem run_cases (t : SymbolTable) (c : Call) :
    (∃ name flag, c.text? = some name ∧ c.run t = (t.intern name flag).map some id) ∨
      c.text? = none ∧ c.run t = (none, { t with temporaries := t.temporaries + 1 }) := by
  cases c with
  | register name canonicalize => cases canonicalize <;> exact .inl ⟨_, false, rfl, rfl⟩
  | registerString content flag => exact .inl ⟨content, flag, rfl, rfl⟩
  | temporary stem => exact .inr ⟨rfl, rfl⟩

theorem run_keeps (h : t.Proper) (c : Call) : (c.run t).2.Proper ∧
    (∀ x, t.Lists x → (c.run t).2.Lists x) ∧ t.temporaries ≤ (c.run t).2.temporaries := by
  rcases run_cases t c with ⟨name, flag, -, hrun⟩ | ⟨-, hrun⟩ <;> rw [hrun]
  · refine ⟨h.intern name flag, fun _ => lists_intern name flag, ?_⟩
    cases hf : t.find? name with
    | some y => simp [intern_of_some hf]
    | none => simp [(intern_of_none flag hf).2.2]
  · exact ⟨⟨h.ids⟩, fun _ hx => hx, Nat.le_succ _⟩

theorem after_keeps (h : t.Proper) (calls : List Call) : (t.after calls).Proper ∧
    (∀ x, t.Lists x → (t.after calls).Lists x) ∧ t.temporaries ≤ (t.after calls).temporaries := by
  induction calls generalizing t with
  | nil => exact ⟨h, fun _ hx => hx, le_rfl⟩
  | cons c calls ih =>
    obtain ⟨hproper, hlists, hle⟩ := run_keeps h c
    obtain ⟨hproper', hlists', hle'⟩ := ih hproper
    exact ⟨hproper', fun x hx => hlists' x (hlists x hx), hle.trans hle'⟩

theorem run_symbol (h : t.Proper) {c : Call} (hx : (c.run t).1 = some x) :
    (c.run t).2.Lists x ∧ c.text? = some x.name := by
  rcases run_cases t c with ⟨name, flag, hc, hrun⟩ | ⟨-, hrun⟩ <;> rw [hrun] at hx ⊢
  · obtain rfl : (t.intern name flag).1 = x := Option.some.inj hx
    exact ⟨h.lists_new name flag, by rw [hc, name_of_find? (t.intern_found name flag)]⟩
  · cases hx

theorem mem_names {name : String} : name ∈ t.names ↔ (t.find? name).isSome = true := by
  rw [Option.isSome_iff_ne_none, ne_eq, find?_eq_none, not_not]

theorem after_names (calls : List Call) :
    (after {} calls).names = (calls.filterMap Call.text?).eraseDups := by
  induction calls using reverseRecOn with
  | nil => rfl
  | append_singleton calls c ih =>
    have hmem : ∀ name, name ∈ (after {} calls).names ↔ name ∈ calls.filterMap Call.text? := by
      simp [ih]
    rw [filterMap_append, eraseDups_append, ← ih, after, foldl_append]
    change (c.run (after {} calls)).2.names = _
    rcases run_cases (after {} calls) c with ⟨name, flag, hc, hrun⟩ | ⟨hc, hrun⟩
    · have hnew := mem_names.symm.trans (hmem name)
      rw [hrun]
      cases hf : (after {} calls).find? name with
      | some y =>
        rw [hf] at hnew
        simp_all [intern_of_some hf, removeAll]
      | none =>
        rw [hf] at hnew
        have hentries := (intern_of_none flag hf).2.1
        simp_all [names, removeAll, eraseDups_cons]
    · simp [hrun, hc, names]

theorem temporary_inj {stem other : String} {n m : Nat} (h : s!"{stem}#{n}" = s!"{other}#{m}") :
    n = m := by
  have hlast : ∀ (stem : String) (k : Nat),
      (s!"{stem}#{k}").toList.reverse.takeWhile (· != '#') = (Nat.repr k).toList.reverse := by
    intro stem k
    have hdigits : ∀ c ∈ (Nat.repr k).toList.reverse, (c != '#') = true := by
      intro c hc
      rw [mem_reverse, Nat.repr, String.toList_ofList] at hc
      have hdigit := Nat.isDigit_of_mem_toDigits (by decide) le_rfl hc
      apply bne_iff_ne.2
      rintro rfl
      cases hdigit
    have hlist : (s!"{stem}#{k}").toList = stem.toList ++ '#' :: (Nat.repr k).toList := by
      simp [toString]
    rw [hlist, reverse_append, reverse_cons, append_assoc,
      takeWhile_append_of_pos hdigits]
    simp
  have hreverse := hlast stem n
  rw [h, hlast other m, reverse_inj, String.toList_inj, Nat.repr_inj] at hreverse
  exact hreverse.symm

/-- After any calls, the table lists the registered texts by their ids, as they were first seen, and
the map takes each of them to its id. No call changes an entry. Two registrations give one id just
when their texts are the same, a name is found just when it was registered, and no two temporaries
have one name. -/
theorem calls_keep_symbols (calls : List Call) :
    let t := after {} calls
    (∀ (i : Nat) (x : Symbol), t.entries[i]? = some x → x.id = i) ∧
    t.names = (calls.filterMap Call.text?).eraseDups ∧ t.names.Nodup ∧
    (∀ name (id : Nat), t.lookup[name]? = some id ↔ t.names[id]? = some name) ∧
    (∀ (c : Call) (i : Nat) x, t.entries[i]? = some x → (c.run t).2.entries[i]? = some x) ∧
    (∀ (c d : Call) between x y, (c.run t).1 = some x →
      (d.run ((c.run t).2.after between)).1 = some y → (x.id = y.id ↔ c.text? = d.text?)) ∧
    (∀ name, (∀ x, t.get? name = some x → x ∈ t.entries ∧ x.name = Symbol.canonical name) ∧
      ((t.get? name).isSome = true ↔ Symbol.canonical name ∈ calls.filterMap Call.text?)) ∧
    ∀ stem stem' between, (t.nextTemporary stem).1 ≠
      (((t.nextTemporary stem).2.after between).nextTemporary stem').1 := by
  have hempty : Proper {} := ⟨fun i x h => by simp at h⟩
  have hproper := (after_keeps hempty calls).1
  refine ⟨hproper.ids, after_names calls, names_nodup _, lookup_eq_some, fun c i x hx => ?_,
    fun c d between x y hx hy => ?_, fun name => ⟨fun x hx => ?_, ?_⟩, fun stem stem' between h => ?_⟩
  · obtain rfl := hproper.ids i x hx
    exact (run_keeps hproper c).2.1 x hx
  · obtain ⟨hlists, hc⟩ := run_symbol hproper hx
    obtain ⟨hbetween, hkept, -⟩ := after_keeps (run_keeps hproper c).1 between
    obtain ⟨hlists', hd⟩ := run_symbol hbetween hy
    obtain ⟨hlater, hkept', -⟩ := run_keeps hbetween d
    have hx' := hkept' x (hkept x hlists)
    rw [hc, hd, Option.some_inj]
    constructor
    · intro hid
      rw [Lists, hid] at hx'
      rw [Option.some.inj (hx'.symm.trans hlists')]
    · intro hname
      have hfound := find?_of_lists hx'
      rw [hname, find?_of_lists hlists'] at hfound
      rw [Option.some.inj hfound]
  · obtain ⟨id, hid, hname⟩ := find?_eq_some.1 hx
    exact ⟨Array.mem_of_getElem? hid, hname⟩
  · rw [get?, ← mem_names, after_names, mem_eraseDups]
  · have hle := (after_keeps (t := ((after {} calls).nextTemporary stem).2) ⟨hproper.ids⟩
      between).2.2
    rw [← temporary_inj h] at hle
    exact Nat.not_succ_le_self _ hle

/-- An operator has the entry of its method, even if that was a string. -/
example : (Call.run (after {} [.registerString "__sub__" true]) (.register "-" true)).1 =
    some ⟨0, "__sub__", true⟩ := rfl

end Adhoc.SymbolTable
