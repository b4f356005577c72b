import Adhoc.Proofs.Decoding
import Adhoc.Proofs.SafeProgram
import Mathlib

namespace Adhoc

open List Operation Format

/-- The bytes are there, or the writer has come upon a jump without a target. -/
inductive Written : Bool → Except Defect (List UInt8) → Prop
  | bytes (b : List UInt8) : Written false (.ok b)
  | stray (k : Nat) : Written true (.error (.unpatchedJump k))

namespace Written

variable {a b : Bool} {x : Except Defect (List UInt8)} {g : List UInt8 → Except Defect (List UInt8)}

theorem bind (hx : Written a x) (hg : ∀ bytes, Written b (g bytes)) : Written (a || b) (x >>= g) := by
  cases hx with
  | bytes bytes => exact hg bytes
  | stray k => exact .stray k

theorem map (hx : Written a x) (m : List UInt8 → List UInt8) : Written a (x.map m) := by
  cases hx with
  | bytes bytes => exact .bytes (m bytes)
  | stray k => exact .stray k

theorem exists_bytes_iff (hx : Written a x) : (∃ bytes, x = .ok bytes) ↔ a = false := by
  cases hx with
  | bytes bytes => simp
  | stray k => simp

theorem unpatchedJump (hx : Written a x) {d : Defect} (hd : x = .error d) :
    ∃ k, d = .unpatchedJump k := by
  cases hx with
  | bytes bytes => cases hd
  | stray k => exact ⟨k, (Except.error.inj hd).symm⟩

end Written

section

variable {f : Format} {t : SymbolTable}

theorem Format.frameHeader_written {h : FrameHeader} (size : Nat) (hs : h.source.isSome = true) :
    Written false (f.frameHeader h size) := by
  obtain ⟨x, hx⟩ := Option.isSome_iff_exists.1 hs
  have hsource : ∃ bytes, f.source h.source = .ok bytes := by
    rw [hx]
    unfold source
    split
    · exact ⟨_, rfl⟩
    · exact ⟨_, rfl⟩
  obtain ⟨bytes, hbytes⟩ := hsource
  rw [frameHeader, hbytes]
  exact .bytes _

theorem Format.pathed_written {op : Pathed} {names : List Symbol}
    (h : (Operation.pathed op names).isWritable = true) : Written false (f.pathed op names) := by
  unfold pathed
  split
  · cases names with
    | cons name rest => exact .bytes _
    | nil =>
      rename_i hop
      obtain rfl := beq_iff_eq.1 (Bool.and_eq_true_iff.1 hop).1
      cases h
  · exact .bytes _

/-- The instructions of a frame are sound if the frame and all frames in it are. -/
theorem Frame.code_sound {header : FrameHeader} {code : List Instruction}
    (h : ∀ g ∈ Frame.preorder ⟨header, code⟩, g.Sound t) : ∀ ins ∈ code, ins.Sound t := by
  intro ins hins
  have hroot := h ⟨header, code⟩ mem_cons_self
  refine ⟨fun x hx => hroot.symbols x ?_, hroot.writable ins hins, fun g hg => h g ?_⟩
  · exact mem_append_right _ (mem_flatMap.2 ⟨ins, hins, hx⟩)
  · exact mem_cons_of_mem _ (mem_framesOf.2 ⟨ins, hins, hg⟩)

mutual

theorem Frame.write_written : ∀ g : Frame, (∀ h ∈ g.preorder, h.Sound t) →
    Written (g.preorder.any Frame.isLoose) (g.write f)
  | ⟨header, code⟩, h => by
    rw [Frame.any_isLoose]
    have hheader := frameHeader_written (f := f) code.length (h _ mem_cons_self).source
    exact hheader.bind fun head => (writeCode_written code 0 (Frame.code_sound h)).map (head ++ ·)

theorem writeCode_written : ∀ (code : List Instruction) (index : Nat),
    (∀ ins ∈ code, ins.Sound t) → Written (code.any Instruction.isLoose) (writeCode f index code)
  | [], _, _ => .bytes []
  | ins :: rest, index, h => by
    rw [forall_mem_cons] at h
    exact (Instruction.write_written ins index h.1).bind fun first =>
      (writeCode_written rest (index + 1) h.2).map (first ++ ·)

theorem Instruction.write_written : ∀ (ins : Instruction) (index : Nat), ins.Sound t →
    Written ins.isLoose (ins.write f index)
  | ⟨line, op⟩, index, h =>
    (Operation.write_written op index h.writable h.frames).map
      ((if f.debug then f.fixed 4 line.toNat else []) ++ ·)

theorem Operation.write_written : ∀ (op : Operation) (index : Nat), op.isWritable = true →
    (∀ g ∈ op.frames, g.Sound t) →
    Written (op.isUnaimed || op.frames.any Frame.isLoose) (op.write f index)
  | op, index, hop, hframes => by
    rw [write_eq]
    refine Written.map ?_ _
    match op with
    | .jump kind none => exact .stray index
    | .pathed kind names => exact pathed_written hop
    | .subroutine name frame isMethod => exact (Frame.write_written frame hframes).map _
    | .jump _ (some _) | .simple _ | .counted .. | .named .. | .variable .. | .constant _
    | .listAssign .. | .classDefine .. | .importName .. | .leave .. | .setState _
    | .setStateOld _ => exact .bytes _

end

end

theorem Operation.hasEncoding_of_isWritable {op : Operation} (h : op.isWritable = true) :
    op.opcode.hasEncoding = true := by
  cases op with
  | unverified op => cases h
  | simple op | counted op n | named op x | pathed op names => cases op <;> rfl
  | jump kind target => cases kind <;> rfl
  | «variable» reach names slot => cases reach <;> rfl
  | constant value => cases value <;> rfl
  | subroutine name frame isMethod => cases name <;> cases isMethod <;> rfl
  | _ => rfl

theorem Frame.aimed_iff (g : Frame) : g.preorder.any Frame.isLoose = false ↔
    ∀ h ∈ g.preorder, ∀ ins ∈ h.code, ins.operation.target? ≠ some none := by
  have haimed : ∀ op : Operation, op.isUnaimed = false ↔ op.target? ≠ some none := by
    intro op
    cases op with
    | jump kind target => cases target <;> simp [isUnaimed, target?]
    | _ => simp [isUnaimed, target?]
  simp only [any_eq_false, Frame.isLoose, Bool.not_eq_true, haimed]

namespace Program

variable {o : Options} {sources : Sources} {depth : Nat} {p : Program} {source : String}
  {script : Script}

/-- Where the includes of a compiled program were looked for decides which jumps have strayed. -/
theorem isLoose_iff (h : p.compile o sources depth source = .ok script) :
    ∃ folder, p.LooksIn o sources source folder ∧
      (script.frame.preorder.any Frame.isLoose = true ↔ .strays ∈ p.trail o sources folder) := by
  obtain ⟨t, hinvariant, -, hframe, -, -⟩ := compile_sound h
  obtain ⟨n, hbalance, hstrays⟩ := hinvariant.balance
  have hnoted : t.frame.noted = 0 := by
    have hmarks := hinvariant.marks
    rw [show (Session.start o source).frame.marks = [] from rfl, forall₂_nil_left_iff] at hmarks
    rw [Draft.noted, Sketch.notes, show t.frame.sketch.marks = [] from hmarks]
    rfl
  -- Nothing is noted any more, so the jumps without a target are those that have strayed.
  have hloose : t.frame.loose = n := by
    rw [hnoted, show (Session.start o source).frame.loose = 0 from rfl,
      show (Session.start o source).frame.noted = 0 from rfl] at hbalance
    simpa using hbalance
  obtain ⟨folder, hfolder, hlooks⟩ := exists_looks hinvariant
  refine ⟨folder, hfolder, ?_⟩
  rw [← hstrays folder hlooks, ← hloose, Draft.loose_pos, hframe]

theorem bytes_written (h : p.compile o sources depth source = .ok script) :
    Written (script.frame.preorder.any Frame.isLoose) script.bytes := by
  obtain ⟨t, -, hsound, hframe, -, -⟩ := compile_sound h
  exact (Frame.write_written script.frame (hframe ▸ hsound.frame.finish)).map _

theorem strays_iff {folder : String} : .strays ∈ p.trail o sources folder ↔
    ∃ s ∈ p.body, Slips ⟨sources, some folder, o.projectFolder⟩ o.version (.stmt s) .strays := by
  simp [trail, Trail.all, Library.at]

end Program

/-- A compiled script is written, unless a `continue` in the update of a `for` loop goes round that
loop. Its jump never gets a target then, and nothing else ever stops the writer. -/
theorem compiled_writes_unless_strays {o : Options} {sources : Sources} {depth : Nat} {p : Program}
    {source : String} {script : Script} (h : p.compile o sources depth source = .ok script) :
    (∃ folder, p.LooksIn o sources source folder ∧
      let quiet := ∀ s ∈ p.body,
        ¬ Slips ⟨sources, some folder, o.projectFolder⟩ o.version (.stmt s) .strays
      ((∃ bytes, script.bytes = .ok bytes) ↔ quiet) ∧
        ((∀ g ∈ script.frame.preorder, ∀ ins ∈ g.code, ins.operation.target? ≠ some none) ↔ quiet)) ∧
    (∀ d, script.bytes = .error d → ∃ k, d = .unpatchedJump k) ∧
    ∀ g ∈ script.frame.preorder, g.header.source.isSome = true ∧ ∀ ins ∈ g.code,
      ins.operation.opcode.hasEncoding = true ∧ ins.operation ≠ .pathed .attributePush [] := by
  have hwritten := Program.bytes_written h
  obtain ⟨folder, hlooks, hloose⟩ := Program.isLoose_iff h
  rw [Program.strays_iff] at hloose
  obtain ⟨t, -, hsound, hframe, -, -⟩ := Program.compile_sound h
  refine ⟨⟨folder, hlooks, ?_, ?_⟩, fun d hd => hwritten.unpatchedJump hd, fun g hg => ?_⟩
  · rw [hwritten.exists_bytes_iff, ← Bool.not_eq_true, hloose]
    simp only [not_exists, not_and]
  · rw [← script.frame.aimed_iff, ← Bool.not_eq_true, hloose]
    simp only [not_exists, not_and]
  · have hg : g.Sound t.symbols := hsound.frame.finish g (hframe ▸ hg)
    exact ⟨hg.source, fun ins hins => ⟨Operation.hasEncoding_of_isWritable (hg.writable ins hins),
      fun hop => by simpa [hop, Operation.isWritable] using hg.writable ins hins⟩⟩

/-- `for (;; f(class X { continue; })) {}` -/
def continueInUpdate : Program where
  body := [.forLoop {} none none (some (.call {} (.ident {} "f") [.classDef {} {
    id := .ident {} "X", superClass := none, body := [.continueLoop {} none], isModule := false }]))
    (.block {} [])]

theorem continueInUpdate_compiles (debug : Bool) : ∃ script, continueInUpdate.compile
    { version := ⟨9, by decide⟩, debug := debug } noSources 0 "main" = .ok script := by
  have hname : Emit.isPath "X" = false := by cbv
  refine exists_ok ?_
  simp only [Program.compile, Program.code, continueInUpdate, stmtCodes, Stmt.code, Expr.code,
    exprCodes, holeCode, nodeHoleCode, ClassDef.code, Emit.classDef, Expr.pathName?, hname]
  cases debug <;> decide +kernel

/-- The update goes round its own loop. -/
theorem continueInUpdate_strays (lib : Library) (v : Version) :
    ∃ s ∈ continueInUpdate.body, Slips lib v (.stmt s) .strays := by
  refine ⟨_, List.mem_cons_self, .strays rfl ?_⟩
  refine .part (List.mem_cons_of_mem _ List.mem_cons_self) rfl ?_
  exact .part List.mem_cons_self rfl (.own rfl)

theorem continueInUpdate_unwritten :
    ∃ script, continueInUpdate.compile { version := ⟨9, by decide⟩ } noSources 0 "main" = .ok script ∧
      ∃ k, script.bytes = .error (.unpatchedJump k) := by
  obtain ⟨script, h⟩ := continueInUpdate_compiles true
  obtain ⟨⟨folder, -, hbytes, -⟩, hdefect, -⟩ := compiled_writes_unless_strays h
  cases hb : script.bytes with
  | error d =>
    obtain ⟨k, rfl⟩ := hdefect d hb
    exact ⟨script, h, k, hb⟩
  | ok bytes =>
    obtain ⟨s, hs, hstrays⟩ := continueInUpdate_strays
      ⟨noSources, some folder, none⟩ ⟨9, by decide⟩
    exact absurd hstrays (hbytes.1 ⟨bytes, hb⟩ s hs)

end Adhoc
