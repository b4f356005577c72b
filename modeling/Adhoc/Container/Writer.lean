import Adhoc.Container.Varint
import Adhoc.Frame.Basic

namespace Adhoc

inductive ByteOrder
  | little
  | big
deriving DecidableEq, Repr

/-- What decides the layout of a container. -/
structure Format where
  version : Version
  order : ByteOrder
  /-- Whether instructions carry their source lines. -/
  debug : Bool
deriving DecidableEq

namespace Format

/-- The lowest `width` bytes of a number in the byte order of the format. -/
def fixed (f : Format) (width n : Nat) : List UInt8 :=
  match f.order with
  | .little => (bigEndian width n).reverse
  | .big => bigEndian width n

@[simp] theorem length_fixed (f : Format) (width n : Nat) : (f.fixed width n).length = width := by
  unfold fixed
  split <;> simp

/-- A signed number in two's complement. -/
def signed (f : Format) (width : Nat) (i : Int) : List UInt8 :=
  f.fixed width (i % (Nat.pow 256 width : Nat)).toNat

def count (f : Format) (n : Nat) : List UInt8 := f.fixed 4 n

def flag (b : Bool) : List UInt8 := [if b then 1 else 0]

/-- A name with its length in front. -/
def inlineName (f : Format) (s : Symbol) : List UInt8 := f.fixed 2 s.bytes.length ++ s.bytes

def symbol (f : Format) (s : Symbol) : List UInt8 :=
  if f.version.has .symbolTable then Varint.encode s.id else f.inlineName s

def symbols (f : Format) (ss : List Symbol) : List UInt8 :=
  f.count ss.length ++ ss.flatMap f.symbol

def tableEntry (s : Symbol) : List UInt8 := Varint.encode s.bytes.length ++ s.bytes

def symbolTable (t : SymbolTable) : List UInt8 :=
  Varint.encode t.entries.size ++ t.entries.toList.flatMap tableEntry

def magic : List UInt8 := "ADCH".toUTF8.toList

/-- The version as three decimal digits. -/
def versionDigits (v : Version) : List UInt8 :=
  [48 + UInt8.ofNat (v.number / 100), 48 + UInt8.ofNat (v.number / 10 % 10),
    48 + UInt8.ofNat (v.number % 10)]

def header (f : Format) (t : SymbolTable) : List UInt8 :=
  magic ++ versionDigits f.version ++ [0] ++
    if f.version.has .symbolTable then symbolTable t else []

def source (f : Format) (s : Option Symbol) : Except Defect (List UInt8) :=
  if f.version.writesFrameSource f.debug then
    match s with
    | some s => .ok (f.symbol s)
    | none => .error .noSource
  else .ok []

/-- Symbols, each followed by an index. -/
def indexed (f : Format) (index : Nat → Int) : Nat → List Symbol → List UInt8
  | _, [] => []
  | i, s :: rest => f.symbol s ++ f.signed 4 (index i) ++ f.indexed index (i + 1) rest

def parameters (f : Format) (ps : List Symbol) : List UInt8 :=
  if !f.version.has .parameterList then []
  else f.count ps.length ++
    if f.version.has .parameterIndices then f.indexed (fun i => 1 + i) 0 ps else ps.flatMap f.symbol

def captured (f : Format) (cs : List Symbol) : List UInt8 :=
  if !f.version.has .capturedList then []
  else f.count cs.length ++ f.indexed (fun i => -(i + 1)) 0 cs ++ f.count 0

def sizes (f : Format) (h : FrameHeader) : List UInt8 :=
  if f.version.has .splitStorage then
    f.signed 4 h.depth.highest ++ f.count h.slots.localSize ++ f.count (h.slots.staticSize?.getD 0)
  else f.count h.slots.localSize ++ f.signed 4 h.depth.highest

def frameHeader (f : Format) (h : FrameHeader) (size : Nat) : Except Defect (List UInt8) := do
  let debug := if f.version.has .frameDebugHeader then
      flag f.debug ++ [UInt8.ofNat f.version.number]
    else []
  let source ← f.source h.source
  let rest := if f.version.has .restFlag then flag h.hasRest else []
  pure (debug ++ source ++ rest ++ f.parameters h.parameters ++ f.captured h.captured ++
    f.sizes h ++ f.count size)

def constant (f : Format) : Constant → List UInt8
  | .int i => f.signed 4 i.toInt
  | .uint n => f.fixed 4 n.toNat
  | .long i => f.signed 8 i.toInt
  | .ulong n => f.fixed 8 n.toNat
  | .float bits => f.fixed 4 bits.toNat
  | .double bits => f.fixed 8 bits.toNat
  | .bool b => flag b
  | .byte i => f.signed 1 i.toInt
  | .ubyte n => [n]
  | .short i => f.signed 2 i.toInt
  | .ushort n => f.fixed 2 n.toNat

def pathed (f : Format) (op : Pathed) (names : List Symbol) : Except Defect (List UInt8) :=
  if op == .attributePush && f.version.has .singleSymbolAttributePush then
    match names with
    | name :: _ => .ok (f.symbol name)
    | [] => .error .namelessAttribute
  else .ok (f.symbols names)

def opcode (op : Opcode) : Except Defect (List UInt8) :=
  match op.code? with
  | some code => .ok [code]
  | none => .error (.noEncoding op)

end Format

mutual

def Frame.write (f : Format) : Frame → Except Defect (List UInt8)
  | ⟨header, code⟩ => do
    let head ← f.frameHeader header code.length
    let body ← writeCode f 0 code
    pure (head ++ body)

/-- The instructions from number `index` on. -/
def writeCode (f : Format) (index : Nat) : List Instruction → Except Defect (List UInt8)
  | [] => .ok []
  | ins :: rest => do
    let first ← ins.write f index
    let rest ← writeCode f (index + 1) rest
    pure (first ++ rest)

def Instruction.write (f : Format) (index : Nat) : Instruction → Except Defect (List UInt8)
  | ⟨line, op⟩ => do
    let operation ← op.write f index
    pure ((if f.debug then f.fixed 4 line.toNat else []) ++ operation)

def Operation.write (f : Format) (index : Nat) : Operation → Except Defect (List UInt8)
  | .unverified op => .error (.notWritable op)
  | .simple op => Format.opcode op.opcode
  | .jump kind target => do
    let code ← Format.opcode kind.opcode
    match target with
    | some t => pure (code ++ f.count t)
    | none => throw (.unpatchedJump index)
  | .counted op n => do
    let code ← Format.opcode op.opcode
    pure (code ++ f.count n)
  | .named op s => do
    let code ← Format.opcode op.opcode
    pure (code ++ f.symbol s)
  | .pathed op names => do
    let code ← Format.opcode op.opcode
    let names ← f.pathed op names
    pure (code ++ names)
  | .variable reach names slot => do
    let code ← Format.opcode reach.opcode
    pure (code ++ f.symbols names ++ f.signed 4 slot)
  | .constant value => do
    let code ← Format.opcode value.opcode
    pure (code ++ f.constant value)
  | .listAssign n hasRest => do
    let code ← Format.opcode .listAssign
    pure (code ++ f.count n ++ if f.version.has .restFlag then Format.flag hasRest else [])
  | .classDefine name bases => do
    let code ← Format.opcode .classDefine
    pure (code ++ f.symbol name ++ f.symbols bases)
  | .importName path target asName => do
    let code ← Format.opcode .importName
    pure (code ++ f.symbols path ++ f.symbol target ++
      if f.version.has .importAlias then f.symbol asName else [])
  | .leave modules rewind => do
    let code ← Format.opcode .leave
    pure (code ++ f.signed 4 modules ++ f.signed 4 rewind)
  | .setState state => do
    let code ← Format.opcode .setState
    pure (code ++ [state.code])
  | .setStateOld state => do
    let code ← Format.opcode .setStateOld
    pure (code ++ [state.code])
  | .subroutine name frame isMethod => do
    let code ← Format.opcode (Operation.subroutine name frame isMethod).opcode
    let body ← frame.write f
    pure (code ++ (match name with
      | some s => f.symbol s
      | none => []) ++ body)

end

/-- A whole container. -/
def Format.script (f : Format) (t : SymbolTable) (root : Frame) : Except Defect (List UInt8) := do
  let body ← root.write f
  pure (f.header t ++ body)

end Adhoc
