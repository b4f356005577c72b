import Adhoc.Proofs.Compilation
import Adhoc.Proofs.Decoding

namespace Adhoc

open List Operation Format

namespace Format

variable {f : Format}

/-- The number that bytes in the order of the format spell. -/
def toNat (f : Format) (bytes : List UInt8) : Nat :=
  match f.order with
  | .little => ofBigEndian 0 bytes.reverse
  | .big => ofBigEndian 0 bytes

/-- The number that they spell in two's complement. -/
def toSigned (f : Format) (bytes : List UInt8) : Int := Int.bmod (f.toNat bytes) (256 ^ bytes.length)

theorem toSigned_fixed (width n : Nat) : f.toSigned (f.fixed width n) = Int.bmod n (256 ^ width) := by
  have hvalue : f.toNat (f.fixed width n) = n % 256 ^ width := by
    unfold toNat fixed
    split <;> simp [*, ofBigEndian_bigEndian]
  rw [toSigned, hvalue, length_fixed, Int.natCast_emod, Int.emod_bmod]

/-- Half of the numbers that two bytes spell are negative. -/
theorem toSigned_fixed_two (n : Nat) : f.toSigned (f.fixed 2 n) = n ↔ n < 2 ^ 15 := by
  rw [toSigned_fixed, Int.bmod]
  omega

end Format

/-- The symbols that are written with the header of a frame. -/
def FrameHeader.written (f : Format) (h : FrameHeader) : List Symbol :=
  (if f.version.writesFrameSource f.debug then h.source.toList else []) ++
    (if f.version.has .parameterList then h.parameters else []) ++
      if f.version.has .capturedList then h.captured else []

mutual

/-- All symbols that are written with a frame, one for each time, in the order of the bytes. -/
def Frame.written (f : Format) : Frame → List Symbol
  | ⟨header, code⟩ => header.written f ++ codeWritten f code

def codeWritten (f : Format) : List Instruction → List Symbol
  | [] => []
  | ins :: rest => ins.written f ++ codeWritten f rest

def Instruction.written (f : Format) : Instruction → List Symbol
  | ⟨_, op⟩ => op.written f

def Operation.written (f : Format) : Operation → List Symbol
  | .named _ x => [x]
  | .pathed op xs => f.writtenNames op xs
  | .variable _ xs _ => xs
  | .classDefine x xs => x :: xs
  | .importName path target asName =>
    path ++ target :: if f.version.has .importAlias then [asName] else []
  | .subroutine name frame _ => name.toList ++ frame.written f
  | _ => []

end

/-- The names stand in the bytes in this order, each with its length in front. -/
inductive Format.Inlines (f : Format) : List UInt8 → List Symbol → Prop
  | rest (bytes : List UInt8) : Inlines f bytes []
  | name {bytes : List UInt8} {xs : List Symbol} (before : List UInt8) (x : Symbol) :
    Inlines f bytes xs → Inlines f (before ++ f.inlineName x ++ bytes) (x :: xs)

namespace Format.Inlines

variable {f : Format} {a b : List UInt8} {xs ys : List Symbol}

theorem after (h : f.Inlines b xs) (before : List UInt8) : f.Inlines (before ++ b) xs := by
  cases h with
  | rest => exact .rest _
  | name before' x h =>
    rw [← append_assoc, ← append_assoc]
    exact .name _ x h

theorem append (ha : f.Inlines a xs) (hb : f.Inlines b ys) : f.Inlines (a ++ b) (xs ++ ys) := by
  induction ha with
  | rest bytes => exact hb.after bytes
  | name before x _ ih =>
    rw [append_assoc]
    exact .name before x ih

theorem before (h : f.Inlines a xs) (bytes : List UInt8) : f.Inlines (a ++ bytes) xs := by
  rw [← append_nil xs]
  exact h.append (.rest bytes)

theorem cut (h : f.Inlines b xs) : ∃ (fronts : List (List UInt8)) (last : List UInt8),
    fronts.length = xs.length ∧ b = (fronts.zip xs).flatMap (fun (front, x) =>
      front ++ f.fixed 2 x.bytes.length ++ x.bytes) ++ last := by
  induction h with
  | rest bytes => exact ⟨[], bytes, rfl, rfl⟩
  | name before x _ ih =>
    obtain ⟨fronts, last, hlength, rfl⟩ := ih
    exact ⟨before :: fronts, last, congrArg Nat.succ hlength, by simp [inlineName]⟩

section

variable (hv : f.version.has .symbolTable = false)
include hv

theorem symbol (x : Symbol) : f.Inlines (f.symbol x) [x] := by
  rw [Format.symbol, if_neg (by simp [hv])]
  simpa using Inlines.name (f := f) [] x (.rest [])

theorem flatMap (xs : List Symbol) : f.Inlines (xs.flatMap f.symbol) xs := by
  induction xs with
  | nil => exact .rest []
  | cons x xs ih => exact (symbol hv x).append ih

theorem symbols (xs : List Symbol) : f.Inlines (f.symbols xs) xs := (flatMap hv xs).after _

theorem indexed (index : Nat → Int) (xs : List Symbol) (i : Nat) :
    f.Inlines (f.indexed index i xs) xs := by
  induction xs generalizing i with
  | nil => exact .rest []
  | cons x xs ih => exact ((symbol hv x).before _).append (ih (i + 1))

theorem parameters (xs : List Symbol) : f.Inlines (f.parameters xs)
    (if f.version.has .parameterList then xs else []) := by
  unfold Format.parameters
  cases f.version.has .parameterList with
  | false => exact .rest []
  | true =>
    refine after ?_ _
    split
    · exact indexed hv _ _ _
    · exact flatMap hv _

theorem captured (xs : List Symbol) : f.Inlines (f.captured xs)
    (if f.version.has .capturedList then xs else []) := by
  unfold Format.captured
  cases f.version.has .capturedList with
  | false => exact .rest []
  | true => exact ((indexed hv _ _ _).after _).before _

theorem source {x : Option Symbol} (h : f.source x = .ok a) :
    f.Inlines a (if f.version.writesFrameSource f.debug then x.toList else []) := by
  unfold Format.source at h
  split at h <;> rename_i hwrites
  · rw [if_pos hwrites]
    cases x <;> cases h
    exact symbol hv _
  · rw [if_neg hwrites]
    exact .rest a

theorem frameHeader {header : FrameHeader} {size : Nat} (h : f.frameHeader header size = .ok a) :
    f.Inlines a (header.written f) := by
  obtain ⟨c, hc, h⟩ := bind_eq_ok h
  obtain rfl := Except.ok.inj h
  refine before (before (append (append (before (after (source hv hc) _) _) ?_) ?_) _) _
  · exact parameters hv _
  · exact captured hv _

theorem pathed {op : Pathed} {names : List Symbol} (h : f.pathed op names = .ok a) :
    f.Inlines a (f.writtenNames op names) := by
  unfold Format.pathed at h
  split at h <;> rename_i hsingle
  · rw [writtenNames, if_pos hsingle]
    cases names <;> cases h
    exact symbol hv _
  · rw [writtenNames, if_neg hsingle]
    cases h
    exact symbols hv _

theorem operands {op : Operation} {index : Nat}
    (hframe : ∀ g ∈ op.frame?, ∀ c, g.write f = .ok c → f.Inlines c (g.written f))
    (h : op.operandBytes f index = .ok a) : f.Inlines a (op.written f) := by
  cases op with
  | named op x =>
    cases h
    exact symbol hv x
  | pathed op names => exact pathed hv h
  | «variable» reach names slot =>
    cases h
    exact before (symbols hv names) _
  | classDefine x xs =>
    cases h
    exact append (symbol hv x) (symbols hv xs)
  | importName path target asName =>
    cases h
    rw [append_assoc]
    refine append (symbols hv path) (append (symbol hv target) (?_ : f.Inlines _ (if _ then _ else _)))
    split
    · exact symbol hv asName
    · exact .rest []
  | subroutine name frame isMethod =>
    obtain ⟨c, hc, rfl⟩ := map_eq_ok h
    refine append ?_ (hframe frame rfl c hc)
    cases name with
    | none => exact .rest []
    | some x => exact symbol hv x
  | _ => exact .rest a

end

end Format.Inlines

mutual

theorem Frame.write_inlines {f : Format} (hv : f.version.has .symbolTable = false) :
    ∀ (x : Frame) {a : List UInt8}, x.write f = .ok a → f.Inlines a (x.written f)
  | ⟨header, code⟩, a, h => by
    rw [Frame.write] at h
    obtain ⟨c, hc, h⟩ := bind_eq_ok h
    obtain ⟨d, hd, h⟩ := bind_eq_ok h
    obtain rfl := Except.ok.inj h
    exact (Inlines.frameHeader hv hc).append (writeCode_inlines hv code hd)

theorem writeCode_inlines {f : Format} (hv : f.version.has .symbolTable = false) :
    ∀ (code : List Instruction) {i : Nat} {a : List UInt8}, writeCode f i code = .ok a →
      f.Inlines a (codeWritten f code)
  | [], _, a, _ => .rest a
  | ins :: rest, i, a, h => by
    rw [writeCode] at h
    obtain ⟨c, hc, h⟩ := bind_eq_ok h
    obtain ⟨d, hd, h⟩ := bind_eq_ok h
    obtain rfl := Except.ok.inj h
    exact (Instruction.write_inlines hv ins hc).append (writeCode_inlines hv rest hd)

theorem Instruction.write_inlines {f : Format} (hv : f.version.has .symbolTable = false) :
    ∀ (ins : Instruction) {i : Nat} {a : List UInt8}, ins.write f i = .ok a →
      f.Inlines a (ins.written f)
  | ⟨line, op⟩, i, a, h => by
    rw [Instruction.write] at h
    obtain ⟨c, hc, h⟩ := bind_eq_ok h
    obtain rfl := Except.ok.inj h
    exact (Operation.write_inlines hv op hc).after _

theorem Operation.write_inlines {f : Format} (hv : f.version.has .symbolTable = false) :
    ∀ (op : Operation) {i : Nat} {a : List UInt8}, op.write f i = .ok a → f.Inlines a (op.written f)
  | op, i, a, h => by
    rw [write_eq] at h
    obtain ⟨c, hc, rfl⟩ := map_eq_ok h
    refine (Inlines.operands hv (fun g hg d hd => ?_) hc).after [_]
    cases op <;> cases hg
    exact Frame.write_inlines hv g hd

end

/-- Before version 9 the bytes of a script hold the names that it uses one after the other, each with
its length in front. The length is read back exactly if the name has less than `2 ^ 15` bytes. -/
theorem inline_length_read_iff {o : Options} {sources : Sources} {depth : Nat} {p : Program}
    {source : String} {script : Script} {bytes : List UInt8} (hv : o.version.number ≤ 8)
    (h : p.compile o sources depth source = .ok script) (hb : script.bytes = .ok bytes) :
    ∃ (names : List (List UInt8 × List UInt8 × Symbol)) (last : List UInt8),
      bytes = names.flatMap (fun (front, size, x) => front ++ size ++ x.bytes) ++ last ∧
      names.map (fun (_, _, x) => x) = script.frame.written script.format ∧
      ∀ front size x, (front, size, x) ∈ names → size.length = 2 ∧
        (script.format.toSigned size = x.bytes.length ↔ x.bytes.length < 2 ^ 15) := by
  obtain ⟨t, -, rfl⟩ := Program.compile_ok h
  have htable : o.format.version.has .symbolTable = false := by
    rw [← Bool.not_eq_true, Version.has_iff rfl]
    exact Nat.not_le.2 (Nat.lt_succ_of_le hv)
  obtain ⟨body, hbody, rfl⟩ := Format.script_ok hb
  obtain ⟨fronts, last, hlength, hcut⟩ :=
    ((Frame.write_inlines htable _ hbody).after (o.format.header t.symbols)).cut
  refine ⟨(fronts.zip (t.frame.finish.written o.format)).map fun (front, x) =>
    (front, o.format.fixed 2 x.bytes.length, x), last, ?_, ?_, ?_⟩
  · rw [List.flatMap_map]
    exact hcut
  · rw [List.map_map]
    exact List.map_snd_zip hlength.ge
  · intro front size x hmem
    obtain ⟨⟨front', x'⟩, -, heq⟩ := List.mem_map.1 hmem
    cases heq
    exact ⟨Format.length_fixed _ _ _, Format.toSigned_fixed_two _⟩

/-- `function f(a) { return a + "text"; }` -/
def textAppender : Program where
  body := [.function {} ⟨some (.ident {} "f"), [.ident {} "a"], .stmt (.block {} [
    .returnValue {} (some (.binary {} .add (.ident {} "a") (.literal {} (.string "text"))))])⟩]

theorem textAppender_lengths_read :
    ∃ script, textAppender.compile { version := ⟨7, by decide⟩ } noSources 0 "main" = .ok script ∧
      ((script.frame.written script.format).map Symbol.name =
        ["main", "f", "main", "a", "a", "text", "+"] ∧ script.bytes.isOk = true) ∧
      ∀ bytes, script.bytes = .ok bytes →
        ∃ (names : List (List UInt8 × List UInt8 × Symbol)) (last : List UInt8),
          bytes = names.flatMap (fun (front, size, x) => front ++ size ++ x.bytes) ++ last ∧
          names.map (fun (_, _, x) => x) = script.frame.written script.format ∧
          ∀ front size x, (front, size, x) ∈ names → size.length = 2 ∧
            (script.format.toSigned size = x.bytes.length ↔ x.bytes.length < 2 ^ 15) :=
  exists_ok_and (by decide +kernel) fun _ h _ hb => inline_length_read_iff (by decide) h hb

/-- A longer name has a wrong length in front. -/
example (f : Format) : f.toSigned (f.fixed 2 (2 ^ 15)) = -2 ^ 15 := by
  rw [Format.toSigned_fixed]
  decide

end Adhoc
