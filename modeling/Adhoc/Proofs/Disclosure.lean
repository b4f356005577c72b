import Adhoc.Proofs.ParallelProgram
import Adhoc.Proofs.SymbolClosure

namespace Adhoc

open List Operation

variable {o : Options} {sources : Sources} {depth : Nat} {p : Program} {script script' : Script}

theorem ByteArray.toList_loop (bs : ByteArray) (i : Nat) (r : List UInt8) :
    ByteArray.toList.loop bs i r = r.reverse ++ bs.data.toList.drop i := by
  fun_induction ByteArray.toList.loop bs i r with
  | case1 i r h ih =>
    have hlt : i < bs.data.toList.length := h
    have hget : bs.get! i = bs.data.toList[i] := by
      obtain ⟨data⟩ := bs
      exact getElem!_pos data i h
    rw [ih, reverse_cons, append_assoc, drop_eq_getElem_cons hlt, hget]
    rfl
  | case2 i r h =>
    have hle : bs.data.toList.length ≤ i := Nat.not_lt.1 h
    rw [drop_eq_nil_of_le hle, append_nil]

theorem toUTF8_toList_inj {a b : String} (h : a.toUTF8.toList = b.toUTF8.toList) : a = b := by
  rw [ByteArray.toList, ByteArray.toList, ByteArray.toList_loop, ByteArray.toList_loop] at h
  exact String.toByteArray_inj.1 (ByteArray.ext (Array.toList_inj.1 h))

/-- The name of the source is the first entry of the table. -/
theorem Program.first_symbol {source : String} (h : p.compile o sources depth source = .ok script) :
    script.symbols.entries[0]? = some ⟨0, source, false⟩ := by
  obtain ⟨t, hcode, rfl⟩ := compile_ok h
  obtain ⟨t', -, hsound, -, hsymbols, -⟩ := compile_sound h
  obtain ⟨ds, hcourse⟩ := Program.course o sources depth hcode
  have hfound : t.symbols.find? source = some ⟨0, source, false⟩ :=
    hcourse.widens.symbols (SymbolTable.intern_found {} source false)
  rw [show t.symbols = t'.symbols from hsymbols] at hfound ⊢
  exact hsound.table.lists_of_find? hfound

section

variable (line : UInt32 → UInt32) (source : Option Symbol → Option Symbol)

mutual

/-- The frame with other lines and sources, here and in the subroutines that it defines. -/
def Frame.redrawn : Frame → Frame
  | ⟨header, code⟩ => ⟨{ header with source := source header.source }, redrawnCode code⟩

def redrawnCode : List Instruction → List Instruction
  | [] => []
  | ins :: rest => ins.redrawn :: redrawnCode rest

def Instruction.redrawn : Instruction → Instruction
  | ⟨l, op⟩ => ⟨line l, op.redrawn⟩

def Operation.redrawn : Operation → Operation
  | .subroutine name frame isMethod => .subroutine name frame.redrawn isMethod
  | op => op

end

theorem redrawnCode_eq (code : List Instruction) :
    redrawnCode line source code = code.map (Instruction.redrawn line source) :=
  eq_map_of_cons rfl (fun _ _ => rfl) code

theorem length_redrawnCode (code : List Instruction) :
    (redrawnCode line source code).length = code.length := by
  rw [redrawnCode_eq, length_map]

theorem Operation.withTarget?_redrawn (op : Operation) (target : Nat) :
    (op.redrawn line source).withTarget? target = op.withTarget? target := by
  cases op <;> rfl

end

/-- Whatever of the lines and the sources the format writes is left as it is. -/
structure Format.Ignores (f : Format) (line : UInt32 → UInt32)
    (source : Option Symbol → Option Symbol) : Prop where
  lines : f.debug = true → ∀ l, line l = l
  sources : f.version.writesFrameSource f.debug = true → ∀ x, source x = x

section

variable {line : UInt32 → UInt32} {source : Option Symbol → Option Symbol} {f : Format}

mutual

theorem Frame.write_redrawn (h : f.Ignores line source) :
    ∀ g : Frame, (g.redrawn line source).write f = g.write f
  | ⟨header, code⟩ => by
    have hhead : f.source (source header.source) = f.source header.source := by
      unfold Format.source
      split
      · rw [h.sources ‹_›]
      · rfl
    simp only [Frame.redrawn, Frame.write, Format.frameHeader, hhead, writeCode_redrawn h code,
      length_redrawnCode, Format.sizes]

theorem writeCode_redrawn (h : f.Ignores line source) :
    ∀ (code : List Instruction) (index : Nat),
      writeCode f index (redrawnCode line source code) = writeCode f index code
  | [], _ => rfl
  | ins :: rest, index => by
    simp only [redrawnCode, writeCode, Instruction.write_redrawn h ins, writeCode_redrawn h rest]

theorem Instruction.write_redrawn (h : f.Ignores line source) :
    ∀ (ins : Instruction) (index : Nat),
      (ins.redrawn line source).write f index = ins.write f index
  | ⟨l, op⟩, index => by
    have hlines : (if f.debug then f.fixed 4 (line l).toNat else []) =
        if f.debug then f.fixed 4 l.toNat else [] := by
      split
      · rw [h.lines ‹_›]
      · rfl
    simp only [Instruction.redrawn, Instruction.write, Operation.write_redrawn h op, hlines]

theorem Operation.write_redrawn (h : f.Ignores line source) :
    ∀ (op : Operation) (index : Nat), (op.redrawn line source).write f index = op.write f index
  | .subroutine name frame isMethod, index => by
    have hopcode : (Operation.subroutine name (frame.redrawn line source) isMethod).opcode =
        (Operation.subroutine name frame isMethod).opcode := by
      cases name <;> cases isMethod <;> rfl
    simp only [Operation.redrawn, Operation.write, hopcode, Frame.write_redrawn h frame]
  | .simple _, _ | .jump _ _, _ | .counted _ _, _ | .named _ _, _ | .pathed _ _, _
  | .variable _ _ _, _ | .constant _, _ | .listAssign _ _, _ | .classDefine _ _, _
  | .importName _ _ _, _ | .leave _ _, _ | .setState _, _ | .setStateOld _, _ | .unverified _, _ => rfl

end

end

/-- From version 9 on, a container tells the name of its source, be it written with debug information
or without: it is the first of the names that are stored. So a program that is compiled under two
names has the same container exactly if the names are the same. At version 8 there are no stored names
and no frame gives its source, so that the bytes are the same with any others. -/
theorem container_names_source {a b : String} {bytes bytes' : List UInt8}
    (ha : p.compile o sources depth a = .ok script) (hb : p.compile o sources depth b = .ok script')
    (hfits : Format.HoldsTable script.symbols) (hfits' : Format.HoldsTable script'.symbols)
    (hbytes : script.bytes = .ok bytes) (hbytes' : script'.bytes = .ok bytes') :
    (9 ≤ o.version.number →
      script.symbols.stored.head? = some a.toUTF8.toList ∧ (bytes = bytes' ↔ a = b)) ∧
    (o.version.number = 8 → ∀ symbols source,
      script.format.script symbols (script.frame.redrawn id source) = .ok bytes) := by
  have hhead {source : String} {script : Script} (h : p.compile o sources depth source = .ok script) :
      script.symbols.stored.head? = some source.toUTF8.toList := by
    rw [SymbolTable.stored, List.head?_map, List.head?_eq_getElem?, Array.getElem?_toList,
      Program.first_symbol h]
    rfl
  obtain ⟨-, -, -, -, -, hformat⟩ := Program.compile_sound ha
  obtain ⟨-, -, -, -, -, hformat'⟩ := Program.compile_sound hb
  obtain ⟨body, hbody, rfl⟩ := Format.script_ok hbytes
  obtain ⟨body', -, rfl⟩ := Format.script_ok hbytes'
  refine ⟨fun hv => ⟨hhead ha, fun heq => ?_, ?_⟩, fun hv symbols source => ?_⟩
  · rw [hformat, hformat'] at heq
    have hstored := (Format.header_reveals (fun _ => hfits) (fun _ => hfits') body body' heq).1
      (Version.has_symbolTable hv)
    have hnames := (hhead ha).symm.trans ((congrArg List.head? hstored).trans (hhead hb))
    exact toUTF8_toList_inj (Option.some.inj hnames)
  · rintro rfl
    obtain rfl := Except.ok.inj (ha.symm.trans hb)
    exact Except.ok.inj (hbytes.symm.trans hbytes')
  · have hversion : script.format.version.number = 8 := by rw [hformat]; exact hv
    have hignores : script.format.Ignores id source := by
      refine ⟨fun _ _ => rfl, fun h => ?_⟩
      simp [Version.writesFrameSource, hversion] at h
    rw [Format.script, Frame.write_redrawn hignores, hbody]
    refine congrArg Except.ok (congrArg (· ++ body) (Format.header_congr fun h => ?_))
    rw [Version.has_iff rfl, hversion] at h
    exact absurd h (by decide)

theorem emptyProgram_names_source :
    let o : Options := { version := ⟨12, by decide⟩, includeFolder := some "", debug := false }
    ∃ script script' bytes bytes', Program.compile o noSources 0 ⟨[]⟩ "a.ad" = .ok script ∧
      Program.compile o noSources 0 ⟨[]⟩ "b.ad" = .ok script' ∧ script.bytes = .ok bytes ∧
      script'.bytes = .ok bytes' ∧ bytes ≠ bytes' := by
  intro o
  have hfits {source : String} {script : Script} (hsource : source.toUTF8.toList.length < 2 ^ 64)
      (h : script.symbols.entries = #[⟨0, source, false⟩]) : Format.HoldsTable script.symbols := by
    rw [Format.HoldsTable, h]
    refine ⟨(by decide : 1 < 2 ^ 64), fun x hx => ?_⟩
    obtain rfl := Array.mem_singleton.1 hx
    exact hsource
  obtain ⟨script, h, ⟨hok, htable⟩, -⟩ := exists_ok_and (x := Program.compile o noSources 0 ⟨[]⟩ "a.ad")
    (P := fun s => s.bytes.isOk = true ∧ s.symbols.entries = #[⟨0, "a.ad", false⟩])
    (by decide +kernel) fun _ _ => trivial
  obtain ⟨script', h', ⟨hok', htable'⟩, -⟩ := exists_ok_and (x := Program.compile o noSources 0 ⟨[]⟩ "b.ad")
    (P := fun s => s.bytes.isOk = true ∧ s.symbols.entries = #[⟨0, "b.ad", false⟩])
    (by decide +kernel) fun _ _ => trivial
  obtain ⟨bytes, hbytes⟩ := exists_ok hok
  obtain ⟨bytes', hbytes'⟩ := exists_ok hok'
  refine ⟨script, script', bytes, bytes', h, h', hbytes, hbytes', fun heq => ?_⟩
  have hnames := ((container_names_source h h' (hfits (by cbv) htable) (hfits (by cbv) htable')
    hbytes hbytes').1 (by decide)).2.1 heq
  exact absurd hnames (by decide)

/-- The frame without the lines of its instructions. -/
def Frame.unlined (g : Frame) : Frame := g.redrawn (fun _ => 0) id

/-- Instructions that differ in lines alone, here or in the subroutines they define. -/
def Instruction.SameUnlined (ins ins' : Instruction) : Prop :=
  ins.redrawn (fun _ => 0) id = ins'.redrawn (fun _ => 0) id

theorem redrawnCode_eq_iff {code code' : List Instruction} :
    redrawnCode (fun _ => 0) id code = redrawnCode (fun _ => 0) id code' ↔
      Forall₂ Instruction.SameUnlined code code' := by
  rw [redrawnCode_eq, redrawnCode_eq, ← forall₂_eq_eq_eq, forall₂_map_left_iff,
    forall₂_map_right_iff]
  rfl

theorem Instruction.SameUnlined.matching : Matching False Instruction.SameUnlined where
  same op _ := rfl
  subroutine _ hcode := by
    simp only [SameUnlined, redrawn, Operation.redrawn, Frame.redrawn, redrawnCode_eq_iff.2 hcode]
  target {ins ins'} target h := by
    obtain ⟨line, op⟩ := ins
    obtain ⟨line', op'⟩ := ins'
    have hop : op.redrawn (fun _ => 0) id = op'.redrawn (fun _ => 0) id :=
      congrArg Instruction.operation h
    rw [← withTarget?_redrawn (fun _ => 0) id, hop, withTarget?_redrawn]
    apply rel_self
    intro op
    rfl

/-- The same program twice, with its positions moved the second time. -/
def Terms.positions (v : Version) (move : Loc → Loc) : Terms where
  left := v
  right := v
  exact := False
  move := move
  move_eq := False.elim
  alike := Instruction.SameUnlined
  matching := Instruction.SameUnlined.matching
  excused _ := False
  folder := none
  fill := keepIncludes
  fill' := keepIncludes
  fill_ne := keepIncludes_ne
  has_eq := v.lowers_alike
  small := .inl rfl

/-- How two compilations of programs come out that differ in their positions. -/
inductive SameUnplaced : Except Failure Script → Except Failure Script → Prop
  | error {e e' : Failure} : e.unplaced = e'.unplaced → SameUnplaced (.error e) (.error e')
  | ok {script script' : Script} : script.format = script'.format → script.symbols = script'.symbols →
    script.frame.unlined = script'.frame.unlined → SameUnplaced (.ok script) (.ok script')

theorem SameUnplaced.symm {r r' : Except Failure Script} (h : SameUnplaced r r') :
    SameUnplaced r' r := by
  cases h with
  | error h => exact .error h.symm
  | ok hformat hsymbols hframe => exact .ok hformat.symm hsymbols.symm hframe.symm

theorem SameUnplaced.trans {r r' r'' : Except Failure Script} (h : SameUnplaced r r')
    (h' : SameUnplaced r' r'') : SameUnplaced r r'' := by
  cases h with
  | error h =>
    cases h' with
    | error h' => exact .error (h.trans h')
  | ok hformat hsymbols hframe =>
    cases h' with
    | ok hformat' hsymbols' hframe' =>
      exact .ok (hformat.trans hformat') (hsymbols.trans hsymbols') (hframe.trans hframe')

theorem Program.compile_moved (o : Options) (sources : Sources) (depth : Nat) (p : Program)
    (source : String) (move : Loc → Loc) : SameUnplaced (p.compile o sources depth source)
      ((p.moved move).compile o sources depth source) := by
  let T := Terms.positions o.version move
  have hcases : T.Compares (p.compile o sources depth source)
      ((p.moved move).compile o sources depth source) :=
    Terms.compile_kept (o := o) rfl rfl rfl depth p source
  rcases hcases with ⟨e, he, -⟩ | ⟨e, e', hfails, hleft, hright⟩ | ⟨script, code, hcode, hleft, hright⟩
  · exact he.elim
  · rw [show p.compile o sources depth source = .error e from hleft,
      show (p.moved move).compile o sources depth source = .error e' from hright]
    exact .error hfails.1
  · obtain ⟨format, ⟨header, code'⟩, symbols, warnings⟩ := script
    rw [show p.compile o sources depth source = .ok _ from hleft,
      show (p.moved move).compile o sources depth source = .ok _ from hright]
    obtain ⟨t, -, hscript⟩ := Program.compile_ok hleft
    have hformat : format = { o with version := o.version }.format := congrArg Script.format hscript
    refine .ok (hformat.trans ?_) rfl ?_
    · rw [hformat]
      rfl
    · simp only [Frame.unlined, Frame.redrawn, redrawnCode_eq_iff.2 hcode]

/-- The containers do not depend on what the lines are. -/
theorem Script.bytes_eq_of_unlined (hdebug : script.format.debug = false)
    (hformat : script.format = script'.format) (hsymbols : script.symbols = script'.symbols)
    (hframe : script.frame.unlined = script'.frame.unlined) : script.bytes = script'.bytes := by
  have hbody : script.frame.write script.format = script'.frame.write script.format := by
    have hignores : script.format.Ignores (fun _ => 0) id := by
      refine ⟨fun h => ?_, fun _ _ => rfl⟩
      simp [hdebug] at h
    exact (Frame.write_redrawn hignores _).symm.trans
      ((congrArg (Frame.write script.format) hframe).trans (Frame.write_redrawn hignores _))
  simp only [Script.bytes, Format.script, ← hformat, ← hsymbols, hbody]

/-- Without debug information, two programs that differ in positions alone come out alike: they fail
for the same reason, or their containers are the same, or neither container can be written. The last
is so just when a `continue` in the update of a `for` loop goes round that loop. Only an identifier
`__LINE__` has to stand at the same place in both. -/
theorem positions_undisclosed (o : Options) (sources : Sources) (depth : Nat) (source : String)
    (p q : Program) (hdebug : o.debug = false) (hpq : p.moved (fun _ => {}) = q.moved fun _ => {}) :
    (∃ e e', p.compile o sources depth source = .error e ∧ q.compile o sources depth source = .error e' ∧
      e.unplaced = e'.unplaced) ∨
    ∃ script script' folder, p.compile o sources depth source = .ok script ∧
      q.compile o sources depth source = .ok script' ∧ p.LooksIn o sources source folder ∧
      let strays := ∃ s ∈ p.body,
        Slips ⟨sources, some folder, o.projectFolder⟩ o.version (.stmt s) .strays
      (¬ strays ∧ (∃ bytes, script.bytes = .ok bytes ∧ script'.bytes = .ok bytes) ∨
        strays ∧ ∃ k, script.bytes = .error (.unpatchedJump k) ∧
          script'.bytes = .error (.unpatchedJump k)) := by
  have hp := Program.compile_moved o sources depth p source fun _ => {}
  have hq := Program.compile_moved o sources depth q source fun _ => {}
  have hsame := hp.trans (hpq ▸ hq.symm)
  cases hcp : p.compile o sources depth source with
  | error e =>
    rw [hcp] at hsame
    cases hcq : q.compile o sources depth source with
    | error e' =>
      rw [hcq] at hsame
      cases hsame with
      | error h => exact .inl ⟨e, e', rfl, rfl, h⟩
    | ok script' =>
      rw [hcq] at hsame
      cases hsame
  | ok script =>
    rw [hcp] at hsame
    cases hcq : q.compile o sources depth source with
    | error e' =>
      rw [hcq] at hsame
      cases hsame
    | ok script' =>
      rw [hcq] at hsame
      cases hsame with
      | ok hformat hsymbols hframe =>
        obtain ⟨t, -, hscript⟩ := Program.compile_ok hcp
        have hoff : script.format.debug = false := by
          rw [hscript]
          exact hdebug
        have hbytes := Script.bytes_eq_of_unlined hoff hformat hsymbols hframe
        obtain ⟨folder, hlooks, hloose⟩ := Program.isLoose_iff hcp
        refine .inr ⟨script, script', folder, rfl, rfl, hlooks, ?_⟩
        rw [Program.strays_iff] at hloose
        intro strays
        rw [← hbytes, show strays ↔ _ from hloose.symm]
        have hwritten := Program.bytes_written hcp
        generalize script.frame.preorder.any Frame.isLoose = loose at hwritten
        generalize script.bytes = written at hwritten
        cases hwritten with
        | bytes bytes => exact .inl ⟨Bool.false_ne_true, bytes, rfl, rfl⟩
        | stray k => exact .inr ⟨rfl, k, rfl, rfl⟩

/-- `switch (1) { default: f(); }`, with the call on the line `n`. -/
def callOnLine (n : UInt32) : Program where
  body := [.switch {} (.literal {} (.int 1)) [⟨⟨n, 1⟩, none, [
    .expression ⟨n, 10⟩ (.call ⟨n, 10⟩ (.ident ⟨n, 10⟩ "f") [])]⟩]]

/-- The calls are written alike although their lines differ, and the loop whose update goes round it is
not written, wherever it stands. -/
theorem callOnLine_undisclosed :
    (let o : Options := { version := ⟨12, by decide⟩, debug := false }
    ∃ script script' bytes, (callOnLine 1).compile o noSources 0 "main" = .ok script ∧
      (callOnLine 2).compile o noSources 0 "main" = .ok script' ∧
      script.frame.code.map Instruction.line ≠ script'.frame.code.map Instruction.line ∧
      script.bytes = .ok bytes ∧ script'.bytes = .ok bytes) ∧
    let o : Options := { version := ⟨9, by decide⟩, debug := false }
    ∃ script script' k, continueInUpdate.compile o noSources 0 "main" = .ok script ∧
      (continueInUpdate.moved fun _ => ⟨7, 1⟩).compile o noSources 0 "main" = .ok script' ∧
      script.bytes = .error (.unpatchedJump k) ∧ script'.bytes = .error (.unpatchedJump k) := by
  constructor <;> intro o
  · obtain ⟨script, h, ⟨hok, hone⟩, -⟩ := exists_ok_and
      (x := (callOnLine 1).compile o noSources 0 "main")
      (P := fun s => s.bytes.isOk = true ∧ 1 ∈ s.frame.code.map Instruction.line)
      (by decide +kernel) fun _ _ => trivial
    obtain ⟨script', h', hnone, -⟩ := exists_ok_and
      (x := (callOnLine 2).compile o noSources 0 "main")
      (P := fun s => 1 ∉ s.frame.code.map Instruction.line) (by decide +kernel) fun _ _ => trivial
    obtain ⟨bytes, hbytes⟩ := exists_ok hok
    refine ⟨script, script', bytes, h, h', fun heq => hnone (heq ▸ hone), hbytes, ?_⟩
    have hmoved : (callOnLine 1).moved (fun _ => {}) = (callOnLine 2).moved fun _ => {} := by
      simp [Program.moved, callOnLine, stmtsMoved, Stmt.moved, casesMoved, SwitchCase.moved, Expr.moved]
    rcases positions_undisclosed o noSources 0 "main" (callOnLine 1) (callOnLine 2) rfl hmoved with
      ⟨e, -, he, -⟩ | ⟨_, _, _, hs, hs', -, ⟨-, b, hb, hb'⟩ | ⟨-, k, hk, -⟩⟩
    · cases h.symm.trans he
    · cases h.symm.trans hs
      cases h'.symm.trans hs'
      rw [hb', ← hb, hbytes]
    · cases h.symm.trans hs
      cases hbytes.symm.trans hk
  · obtain ⟨script, h⟩ := continueInUpdate_compiles false
    have hmoved : continueInUpdate.moved (fun _ => {}) =
        (continueInUpdate.moved fun _ => ⟨7, 1⟩).moved fun _ => {} := by
      simp [Program.moved, continueInUpdate, stmtsMoved, Stmt.moved, Expr.moved, exprsMoved,
        holeMoved, ClassDef.moved, nodeHoleMoved]
    rcases positions_undisclosed o noSources 0 "main" continueInUpdate _ rfl hmoved with
      ⟨e, -, he, -⟩ | ⟨_, script', _, hs, hs', -, ⟨hsafe, -⟩ | ⟨-, k, hk, hk'⟩⟩
    · cases h.symm.trans he
    · exact absurd (continueInUpdate_strays _ _) hsafe
    · exact ⟨_, script', k, hs, hs', hk, hk'⟩

end Adhoc
