import Adhoc.Proofs.Disclosure

namespace Adhoc

open Emit List

variable {content : String} {hexEscaped : Bool} {v : Version} {line : UInt32}

/-- The bytes that a string constant is to be stored as. -/
def textBytes (content : String) (hexEscaped : Bool) : List UInt8 :=
  if hexEscaped then content.toList.map fun c => UInt8.ofNat c.toNat else content.toUTF8.toList

def IsAscii (content : String) : Prop := ∀ c ∈ content.toList, c.toNat < 128

theorem toUTF8_toList (content : String) :
    content.toUTF8.toList = content.toList.flatMap String.utf8EncodeChar := by
  have hbytes : content.toUTF8 = content.toList.utf8Encode := by
    rw [← String.toByteArray_ofList, String.ofList_toList]
    rfl
  rw [hbytes, ByteArray.toList, ByteArray.toList_loop, utf8Encode, data_toByteArray]
  rfl

theorem utf8Size_eq_one_iff (c : Char) : c.utf8Size = 1 ↔ c.toNat < 128 := by
  rw [Char.utf8Size_eq_one_iff, UInt32.le_iff_toNat_le, ← Nat.lt_succ_iff]
  rfl

theorem utf8EncodeChar_of_ascii {c : Char} (h : c.toNat < 128) :
    String.utf8EncodeChar c = [UInt8.ofNat c.toNat] := by
  rw [String.utf8EncodeChar_eq_singleton ((utf8Size_eq_one_iff c).2 h)]
  rfl

theorem length_utf8 (cs : List Char) : cs.length ≤ (cs.flatMap String.utf8EncodeChar).length ∧
    ((cs.flatMap String.utf8EncodeChar).length = cs.length → ∀ c ∈ cs, c.toNat < 128) := by
  induction cs with
  | nil => exact ⟨Nat.le_refl _, fun _ _ hc => nomatch hc⟩
  | cons c cs ih =>
    have hpos := c.utf8Size_pos
    rw [flatMap_cons, length_append, String.length_utf8EncodeChar, length_cons]
    refine ⟨by omega, fun h => forall_mem_cons.2 ⟨?_, ih.2 (by omega)⟩⟩
    exact (utf8Size_eq_one_iff c).1 (by omega)

theorem textBytes_true_eq_iff : textBytes content true = textBytes content false ↔ IsAscii content := by
  rw [textBytes, textBytes, if_pos rfl, if_neg Bool.false_ne_true, toUTF8_toList]
  constructor
  · intro h
    refine (length_utf8 content.toList).2 ?_
    rw [← h, length_map]
  · intro h
    rw [← flatMap_singleton' (content.toList.map _), flatMap_map]
    exact flatMap_congr fun c hc => (utf8EncodeChar_of_ascii (h c hc)).symm

theorem textBytes_eq_iff {flag : Bool} :
    textBytes content flag = textBytes content hexEscaped ↔ IsAscii content ∨ flag = hexEscaped := by
  cases flag <;> cases hexEscaped
  · simp
  · simp [eq_comm (a := textBytes content false), textBytes_true_eq_iff]
  · simp [textBytes_true_eq_iff]
  · simp

theorem SymbolTable.intern_bytePerChar_iff (t : SymbolTable) :
    (t.intern content hexEscaped).1.bytePerChar = hexEscaped ↔
      ∀ y, t.find? content = some y → y.bytePerChar = hexEscaped := by
  cases h : t.find? content with
  | some y => simp [intern_of_some h]
  | none => simp [(intern_of_none hexEscaped h).1]

namespace Emit

/-- A string constant. -/
def stringConst (v : Version) (line : UInt32) (content : String) (hexEscaped : Bool) : Emit Unit := do
  let symbol ← stringSymbol content hexEscaped
  emit v (.named .stringConst symbol) line

theorem stringConst_ok {s t : Session} (h : stringConst v line content hexEscaped s = .ok ((), t)) :
    t.symbols = (s.symbols.intern content hexEscaped).2 ∧ t.frame.code =
      s.frame.code.push ⟨line, .named .stringConst (s.symbols.intern content hexEscaped).1⟩ := by
  obtain ⟨x, r, h1, h2⟩ := bind_ok.1 h
  simp only [stringSymbol, interned, Except.ok.injEq, Prod.mk.injEq] at h1
  obtain ⟨rfl, rfl⟩ := h1
  obtain ⟨depth, rfl⟩ := emit_ok h2
  exact ⟨rfl, rfl⟩

theorem text_eq (loc : Loc) : text v loc content hexEscaped =
    if content.isEmpty && v.has .stringPushForEmptyString then emit v (.counted .stringPush 0) loc.line
    else stringConst v loc.line content hexEscaped := rfl

theorem templateParts_cons (q : Quasi) (quasis : List Quasi) (es : List ExprCode) :
    templateParts v (q :: quasis) es = (do
      stringConst v q.loc.line q.text q.hexEscaped
      match es with
      | [] => (1 + ·) <$> templateParts v quasis []
      | e :: es => do
        e.value
        (2 + ·) <$> templateParts v quasis es) := by
  cases es <;> simp [templateParts, stringConst]

end Emit

theorem stringConst_listed {o : Options} {sources : Sources} {depth : Nat} {p : Program}
    {source : String} {script : Script} {g : Frame} {ins : Instruction} {x : Symbol}
    (hv : 9 ≤ o.version.number) (h : p.compile o sources depth source = .ok script)
    (hg : g ∈ script.frame.preorder) (hins : ins ∈ g.code) (hop : ins.operation = .named .stringConst x) :
    script.symbols.entries[x.id]? = some x ∧
      ∀ bytes, script.bytes = .ok bytes → Format.HoldsTable script.symbols →
        ∃ names finish, readTable bytes 8 = some (names, finish) ∧ names[x.id]? = some x.bytes := by
  obtain ⟨t, -, hsound, hframe, hsymbols, hformat⟩ := Program.compile_sound h
  have hx : x ∈ g.symbols := mem_append_right _ (mem_flatMap.2 ⟨ins, hins, hop ▸ mem_singleton.2 rfl⟩)
  have hlists : script.symbols.Lists x :=
    hsymbols ▸ (hsound.frame.finish g (hframe ▸ hg)).symbols x hx
  refine ⟨hlists, fun bytes hbytes hholds => ?_⟩
  obtain ⟨body, -, rfl⟩ := Format.script_ok hbytes
  have hdrop := Format.header_drop (f := script.format) (hformat ▸ hv) script.symbols body
  refine ⟨_, _, (readTable_iff hdrop).2 hholds, ?_⟩
  rw [SymbolTable.stored, getElem?_map, Array.getElem?_toList, hlists]
  rfl

/-- Between the two sessions a `STRING_CONST` is appended whose symbol is the entry of the text, also in
`table` if that comes later. The entry has the form of the constant exactly if nothing before gave the
text the other one. -/
def Session.StoresText (table : SymbolTable) (line : UInt32) (content : String) (hexEscaped : Bool)
    (s t : Session) : Prop :=
  ∃ x, t.frame.code = s.frame.code.push ⟨line, .named .stringConst x⟩ ∧ x.name = content ∧
    (t.symbols.Grows table → table.entries[x.id]? = some x) ∧
    (x.bytePerChar = hexEscaped ↔
      ∀ y, s.symbols.find? content = some y → y.bytePerChar = hexEscaped)

theorem Session.StoresText.of_stringConst {table : SymbolTable} {s t : Session} (htable : table.Proper)
    (h : stringConst v line content hexEscaped s = .ok ((), t)) :
    s.StoresText table line content hexEscaped t := by
  obtain ⟨hsymbols, hcode⟩ := stringConst_ok h
  have hfound := s.symbols.intern_found content hexEscaped
  refine ⟨_, hcode, SymbolTable.name_of_find? hfound, fun hgrows => ?_,
    s.symbols.intern_bytePerChar_iff⟩
  exact htable.lists_of_find? (hgrows (hsymbols ▸ hfound))

/-- From version 9 on, each `STRING_CONST` of a compiled script refers to the entry of its text, and
these are the bytes of a constant exactly if the text is ASCII or the entry has the constant's form.
String literals are stored as such constants, apart from an empty one where that is pushed as a string
of no parts, and so is each quasi of a template before the rest of it. -/
theorem stringConst_stored_iff {o : Options} {sources : Sources} {depth : Nat} {p : Program}
    {source : String} {script : Script} (hv : 9 ≤ o.version.number)
    (hcompile : p.compile o sources depth source = .ok script) :
    (∀ g ∈ script.frame.preorder, ∀ ins ∈ g.code, ∀ x, ins.operation = .named .stringConst x →
      script.symbols.entries[x.id]? = some x ∧
      (∀ bytes, script.bytes = .ok bytes → Format.HoldsTable script.symbols →
        ∃ names finish, readTable bytes 8 = some (names, finish) ∧ names[x.id]? = some x.bytes) ∧
      ∀ hexEscaped, x.bytes = textBytes x.name hexEscaped ↔
        IsAscii x.name ∨ x.bytePerChar = hexEscaped) ∧
    (∀ {loc content hexEscaped s t}, text o.version loc content hexEscaped s = .ok ((), t) →
      if content.isEmpty && o.version.has .stringPushForEmptyString then
        t.frame.code = s.frame.code.push ⟨loc.line, .counted .stringPush 0⟩
      else s.StoresText script.symbols loc.line content hexEscaped t) ∧
    (∀ {q quasis es n s t}, templateParts o.version (q :: quasis) es s = .ok (n, t) →
      ∃ r, s.StoresText script.symbols q.loc.line q.text q.hexEscaped r ∧
        (match es with
          | [] => (1 + ·) <$> templateParts o.version quasis []
          | e :: es => do
            e.value
            (2 + ·) <$> templateParts o.version quasis es) r = .ok (n, t)) ∧
    ∀ {line content hexEscaped s t}, stringConst o.version line content hexEscaped s = .ok ((), t) →
      s.StoresText script.symbols line content hexEscaped t := by
  obtain ⟨e, -, hsound, -, hscript, -⟩ := Program.compile_sound hcompile
  have htable : script.symbols.Proper := hscript ▸ hsound.table
  refine ⟨fun g hg ins hins x hop => ?_, fun {loc content hexEscaped s t} h => ?_, fun h => ?_,
    .of_stringConst htable⟩
  · obtain ⟨hentry, hread⟩ := stringConst_listed hv hcompile hg hins hop
    exact ⟨hentry, hread, fun _ => textBytes_eq_iff⟩
  · rw [text_eq] at h
    split at h <;> rename_i hempty
    · obtain ⟨depth, rfl⟩ := emit_ok h
      rw [if_pos hempty]
      rfl
    · rw [if_neg hempty]
      exact .of_stringConst htable h
  · rw [templateParts_cons] at h
    obtain ⟨_, r, hstored, hrest⟩ := bind_ok.1 h
    exact ⟨r, .of_stringConst htable hstored, hrest⟩

/-- A plain string, and the same string with a hex escape. -/
def escapedTwin : Program where
  body := [.expression {} (.literal {} (.string "é")), .expression {} (.template {} [⟨{}, "é", true⟩] [])]

/-- The second string is stored as the first one, in two bytes. -/
theorem escapedTwin_shares_entry : ∃ script s t x,
    escapedTwin.compile {} noSources 0 "main" = .ok script ∧
    Emit.text .latestCommon {} "é" false (Session.start {} "main") = .ok ((), s) ∧
    stringConst .latestCommon 0 "é" true s = .ok ((), t) ∧ t.symbols.Grows script.symbols ∧
    t.frame.code = s.frame.code.push ⟨0, .named .stringConst x⟩ ∧
    script.symbols.entries[x.id]? = some x ∧ x.bytes ≠ textBytes "é" true := by
  have hentries : (escapedTwin.compile {} noSources 0 "main").toOption.map (·.symbols.entries) =
      some #[⟨0, "main", false⟩, ⟨1, "é", false⟩] := by decide +kernel
  cases hcompile : escapedTwin.compile {} noSources 0 "main" with
  | error e =>
    rw [hcompile] at hentries
    cases hentries
  | ok script =>
    simp only [hcompile, Except.toOption, Option.map_some, Option.some.injEq] at hentries
    obtain ⟨s, t, hs, ht, hfirst, hlast⟩ : ∃ s t,
        Emit.text .latestCommon {} "é" false (Session.start {} "main") = .ok ((), s) ∧
        stringConst .latestCommon 0 "é" true s = .ok ((), t) ∧
        s.symbols.find? "é" = some ⟨1, "é", false⟩ ∧
        t.symbols.entries = #[⟨0, "main", false⟩, ⟨1, "é", false⟩] := ⟨_, _, rfl, rfl, rfl, rfl⟩
    have hgrows : t.symbols.Grows script.symbols := by
      intro name x hx
      rwa [SymbolTable.find?_eq_some, hlast, ← hentries, ← SymbolTable.find?_eq_some] at hx
    obtain ⟨x, hcode, hname, hentry, hform⟩ :=
      (stringConst_stored_iff (o := {}) (by decide) hcompile).2.2.2 ht
    refine ⟨script, s, t, x, rfl, hs, ht, hgrows, hcode, hentry hgrows, fun hbytes => ?_⟩
    rw [← hname] at hbytes
    rcases textBytes_eq_iff.1 hbytes with hascii | hflag
    · exact absurd (hascii 'é' (by rw [hname]; decide)) (by decide)
    · cases hform.1 hflag _ hfirst

end Adhoc
