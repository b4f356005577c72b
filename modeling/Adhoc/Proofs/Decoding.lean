import Adhoc.Proofs.Reveals

namespace Adhoc

open List Operation Instruction Format

variable {f : Format} {op : Pathed} {a b : List UInt8}

theorem map_eq_ok {ε α β : Type} {x : Except ε α} {g : α → β} {b : β} (h : x.map g = .ok b) :
    ∃ a, x = .ok a ∧ g a = b := by
  cases x with
  | error e => cases h
  | ok a => exact ⟨a, rfl, Except.ok.inj h⟩

theorem bind_eq_ok {ε α β : Type} {x : Except ε α} {g : α → Except ε β} {b : β}
    (h : x >>= g = .ok b) : ∃ a, x = .ok a ∧ g a = .ok b := by
  cases x with
  | error e => cases h
  | ok a => exact ⟨a, rfl, h⟩

structure FrameHeader.InRange (f : Format) (h : FrameHeader) : Prop where
  source : ∀ x ∈ h.source, f.Holds x
  parameters : f.HoldsAll h.parameters
  captured : f.HoldsAll h.captured
  highest : isSignedWord h.depth.highest = true
  locals : h.slots.localSize < 2 ^ 31
  statics : h.slots.staticSize?.getD 0 < 2 ^ 31

/-- The operands of the operation fit into the container, those of a nested frame aside. -/
def Operation.InRange (f : Format) : Operation → Prop
  | .jump _ target => ∀ t ∈ target, t < 2 ^ 31
  | .counted _ n | .listAssign n _ => n < 2 ^ 31
  | .named _ x => f.Holds x
  | .pathed _ names => f.HoldsAll names
  | .variable _ names slot => f.HoldsAll names ∧ isSignedWord slot = true
  | .classDefine name bases => f.Holds name ∧ f.HoldsAll bases
  | .importName path target asName => f.HoldsAll path ∧ f.Holds target ∧ f.Holds asName
  | .leave modules rewind => isSignedWord modules = true ∧ isSignedWord rewind = true
  | .subroutine name _ _ => ∀ x ∈ name, f.Holds x
  | .simple _ | .constant _ | .setState _ | .setStateOld _ | .unverified _ => True

/-- The counts, sizes, targets and symbols of the frame fit, those of frames below it aside. -/
structure Frame.Own (f : Format) (frame : Frame) : Prop where
  header : frame.header.InRange f
  size : frame.code.length < 2 ^ 31
  operations : ∀ ins ∈ frame.code, ins.operation.InRange f

def Frame.InRange (f : Format) (frame : Frame) : Prop := ∀ g ∈ frame.preorder, g.Own f

structure FrameHeader.Agrees (f : Format) (h h' : FrameHeader) : Prop where
  source : f.version.writesFrameSource f.debug = true → Option.Rel f.Same h.source h'.source
  hasRest : f.version.has .restFlag = true → h.hasRest = h'.hasRest
  parameters : f.version.has .parameterList = true →
    Forall₂ f.Same h.parameters h'.parameters
  captured : f.version.has .capturedList = true → Forall₂ f.Same h.captured h'.captured
  highest : h.depth.highest = h'.depth.highest
  locals : h.slots.localSize = h'.slots.localSize
  statics : f.version.has .splitStorage = true →
    h.slots.staticSize?.getD 0 = h'.slots.staticSize?.getD 0

/-- The names of a path that are written: old versions write the first name of an attribute only. -/
def Format.writtenNames (f : Format) (op : Pathed) (names : List Symbol) : List Symbol :=
  if op == .attributePush && f.version.has .singleSymbolAttributePush then names.take 1 else names

mutual

inductive Frame.Agrees (f : Format) : Frame → Frame → Prop
  | intro {h h' : FrameHeader} {code code' : List Instruction} (header : h.Agrees f h')
      (instructions : Forall₂ (Instruction.Agrees f) code code') :
      Frame.Agrees f ⟨h, code⟩ ⟨h', code'⟩

inductive Instruction.Agrees (f : Format) : Instruction → Instruction → Prop
  | intro {line line' : UInt32} {op op' : Operation} (lines : f.debug = true → line = line')
      (operation : op.Agrees f op') : Instruction.Agrees f ⟨line, op⟩ ⟨line', op'⟩

inductive Operation.Agrees (f : Format) : Operation → Operation → Prop
  | simple (op : Simple) : Operation.Agrees f (.simple op) (.simple op)
  | jump (kind : Jump) (target : Option Nat) : Operation.Agrees f (.jump kind target) (.jump kind target)
  | counted (op : Counted) (n : Nat) : Operation.Agrees f (.counted op n) (.counted op n)
  | named (op : Named) {x y : Symbol} (name : f.Same x y) : Operation.Agrees f (.named op x) (.named op y)
  | pathed (op : Pathed) {xs ys : List Symbol}
      (names : Forall₂ f.Same (f.writtenNames op xs) (f.writtenNames op ys)) :
      Operation.Agrees f (.pathed op xs) (.pathed op ys)
  | variable (reach : Reach) {xs ys : List Symbol} (names : Forall₂ f.Same xs ys)
      (slot : Int) : Operation.Agrees f (.variable reach xs slot) (.variable reach ys slot)
  | constant (value : Constant) : Operation.Agrees f (.constant value) (.constant value)
  | listAssign (n : Nat) {b c : Bool} (rest : f.version.has .restFlag = true → b = c) :
      Operation.Agrees f (.listAssign n b) (.listAssign n c)
  | classDefine {x y : Symbol} {xs ys : List Symbol} (name : f.Same x y)
      (bases : Forall₂ f.Same xs ys) : Operation.Agrees f (.classDefine x xs) (.classDefine y ys)
  | importName {xs ys : List Symbol} {t u a b : Symbol} (path : Forall₂ f.Same xs ys)
      (target : f.Same t u) (asName : f.version.has .importAlias = true → f.Same a b) :
      Operation.Agrees f (.importName xs t a) (.importName ys u b)
  | leave (modules rewind : Int) : Operation.Agrees f (.leave modules rewind) (.leave modules rewind)
  | setState (state : RunState) : Operation.Agrees f (.setState state) (.setState state)
  | setStateOld (state : RunState) : Operation.Agrees f (.setStateOld state) (.setStateOld state)
  | subroutine {x y : Option Symbol} {g g' : Frame} (isMethod : Bool)
      (name : Option.Rel f.Same x y) (frame : g.Agrees f g') :
      Operation.Agrees f (.subroutine x g isMethod) (.subroutine y g' isMethod)

end

/-- Which operands stand after an opcode. -/
inductive Layout
  | nothing
  | target
  | count
  | symbol
  | path
  | slot
  | constant
  | listAssign
  | classDefine
  | importName
  | leave
  | state
  | oldState
  | subroutine
  | unknown

def Opcode.layout : Opcode → Layout
  | .assignOld | .eval | .nilConst | .nop | .popOld | .require | .throw | .assign | .objectSelector
  | .arrayPush | .mapConst | .mapInsert | .pop | .voidConst | .assignPop | .elementPush
  | .elementEval | .moduleConstructor | .codeEval | .logicalOptional => .nothing
  | .jump | .jumpIfTrue | .jumpIfFalse | .jumpIfNil | .logicalAndOld | .logicalOrOld | .logicalAnd
  | .logicalOr | .tryCatch => .target
  | .arrayConstOld | .call | .listAssignOld | .print | .stringPush | .mapConstOld | .callOld
  | .arrayConst | .vaCall => .count
  | .attributeDefine | .binaryAssign | .binary | .staticDefine | .stringConst | .unaryAssign | .unary
  | .sourceFile | .symbolConst | .delegateDefine => .symbol
  | .attributePush | .moduleDefine | .undef | .attributeEval => .path
  | .variablePush | .variableEval => .slot
  | .intConst | .uintConst | .longConst | .ulongConst | .floatConst | .doubleConst | .boolConst
  | .byteConst | .ubyteConst | .shortConst | .ushortConst => .constant
  | .listAssign => .listAssign
  | .classDefine => .classDefine
  | .importName => .importName
  | .leave => .leave
  | .setState => .state
  | .setStateOld => .oldState
  | .functionDefine | .methodDefine | .functionConst | .methodConst => .subroutine
  | .localDefine | .jumpIfNotNil | .jumpNotNil => .unknown

namespace Operation

def layout : Operation → Layout
  | .simple _ => .nothing
  | .jump _ _ => .target
  | .counted _ _ => .count
  | .named _ _ => .symbol
  | .pathed _ _ => .path
  | .variable _ _ _ => .slot
  | .constant _ => .constant
  | .listAssign _ _ => .listAssign
  | .classDefine _ _ => .classDefine
  | .importName _ _ _ => .importName
  | .leave _ _ => .leave
  | .setState _ => .state
  | .setStateOld _ => .oldState
  | .subroutine _ _ _ => .subroutine
  | .unverified _ => .unknown
/-- The frame that the operation holds. -/
def frame? : Operation → Option Frame
  | .subroutine _ frame _ => some frame
  | _ => none

/-- The bytes after the opcode. -/
def operandBytes (f : Format) (index : Nat) : Operation → Except Defect (List UInt8)
  | .unverified op => .error (.notWritable op)
  | .simple _ => .ok []
  | .jump _ (some t) => .ok (f.count t)
  | .jump _ none => .error (.unpatchedJump index)
  | .counted _ n => .ok (f.count n)
  | .named _ s => .ok (f.symbol s)
  | .pathed op names => f.pathed op names
  | .variable _ names slot => .ok (f.symbols names ++ f.signed 4 slot)
  | .constant value => .ok (f.constant value)
  | .listAssign n hasRest =>
    .ok (f.count n ++ if f.version.has .restFlag then Format.flag hasRest else [])
  | .classDefine name bases => .ok (f.symbol name ++ f.symbols bases)
  | .importName path target asName =>
    .ok (f.symbols path ++ f.symbol target ++
      if f.version.has .importAlias then f.symbol asName else [])
  | .leave modules rewind => .ok (f.signed 4 modules ++ f.signed 4 rewind)
  | .setState state | .setStateOld state => .ok [state.code]
  | .subroutine name frame _ => (frame.write f).map (name.elim [] f.symbol ++ ·)

theorem write_eq (op : Operation) (index : Nat) :
    op.write f index = (op.operandBytes f index).map (UInt8.ofNat op.opcode.ctorIdx :: ·) := by
  cases op with
  | simple op | counted op n | named op x => cases op <;> rfl
  | jump kind target => cases kind <;> cases target <;> rfl
  | pathed op names =>
    simp only [write, operandBytes]
    cases f.pathed op names <;> cases op <;> rfl
  | «variable» reach names slot => cases reach <;> rfl
  | constant value => cases value <;> rfl
  | subroutine name frame isMethod =>
    simp only [write, operandBytes]
    cases frame.write f <;> cases name <;> cases isMethod <;> rfl
  | _ => rfl

theorem layout_opcode {op : Operation} {index : Nat} (h : op.operandBytes f index = .ok a) :
    op.opcode.layout = op.layout := by
  cases op with
  | simple op | counted op n | named op x | pathed op names => cases op <;> rfl
  | jump kind target => cases kind <;> rfl
  | «variable» reach names slot => cases reach <;> rfl
  | constant value => cases value <;> rfl
  | subroutine name frame isMethod => cases name <;> cases isMethod <;> rfl
  | unverified op => cases h
  | _ => rfl

theorem opcode_of_byte {x y : Opcode}
    (h : UInt8.ofNat x.ctorIdx = UInt8.ofNat y.ctorIdx) : x = y := by
  have hlt (op : Opcode) : op.ctorIdx < 256 := by cases op <;> decide
  have hidx : x.ctorIdx = y.ctorIdx := by
    have := congrArg UInt8.toNat h
    rwa [UInt8.toNat_ofNat', UInt8.toNat_ofNat', Nat.mod_eq_of_lt (hlt x),
      Nat.mod_eq_of_lt (hlt y)] at this
  rw [← Opcode.ofNat_ctorIdx x, hidx, Opcode.ofNat_ctorIdx]

end Operation

theorem Simple.opcode_inj {x y : Simple} (h : x.opcode = y.opcode) : x = y := by
  cases x <;> cases y <;> first | rfl | cases h

theorem Jump.opcode_inj {x y : Jump} (h : x.opcode = y.opcode) : x = y := by
  cases x <;> cases y <;> first | rfl | cases h

theorem Counted.opcode_inj {x y : Counted} (h : x.opcode = y.opcode) : x = y := by
  cases x <;> cases y <;> first | rfl | cases h

theorem Named.opcode_inj {x y : Named} (h : x.opcode = y.opcode) : x = y := by
  cases x <;> cases y <;> first | rfl | cases h

theorem Pathed.opcode_inj {x y : Pathed} (h : x.opcode = y.opcode) : x = y := by
  cases x <;> cases y <;> first | rfl | cases h

theorem Reach.opcode_inj {x y : Reach} (h : x.opcode = y.opcode) : x = y := by
  cases x <;> cases y <;> first | rfl | cases h

theorem RunState.code_inj {x y : RunState} (h : x.code = y.code) : x = y := by
  cases x <;> cases y <;> first | rfl | exact absurd h (by decide)

namespace Format

theorem constant_reveals {x y : Constant} (h : x.opcode = y.opcode) :
    Reveals (f.constant x) (f.constant y) (x = y) := by
  cases x <;> cases y <;> try cases h
  case int i j =>
    exact (signed_reveals (.of_bounds rfl i.le_toInt i.toInt_lt)
      (.of_bounds rfl j.le_toInt j.toInt_lt)).mono fun h => by rw [Int32.toInt_inj.1 h]
  case uint n m =>
    exact (fixed_reveals n.toNat_lt m.toNat_lt).mono fun h => by rw [UInt32.toNat_inj.1 h]
  case long i j =>
    exact (signed_reveals (.of_bounds rfl i.le_toInt i.toInt_lt)
      (.of_bounds rfl j.le_toInt j.toInt_lt)).mono fun h => by rw [Int64.toInt_inj.1 h]
  case ulong n m =>
    exact (fixed_reveals n.toNat_lt m.toNat_lt).mono fun h => by rw [UInt64.toNat_inj.1 h]
  case float n m =>
    exact (fixed_reveals n.toNat_lt m.toNat_lt).mono fun h => by rw [UInt32.toNat_inj.1 h]
  case double n m =>
    exact (fixed_reveals n.toNat_lt m.toNat_lt).mono fun h => by rw [UInt64.toNat_inj.1 h]
  case bool b c => exact (flag_reveals b c).mono fun h => by rw [h]
  case byte i j =>
    exact (signed_reveals (.of_bounds rfl i.le_toInt i.toInt_lt)
      (.of_bounds rfl j.le_toInt j.toInt_lt)).mono fun h => by rw [Int8.toInt_inj.1 h]
  case ubyte n m => exact .of_length rfl fun h => by rw [head_eq_of_cons_eq h]
  case short i j =>
    exact (signed_reveals (.of_bounds rfl i.le_toInt i.toInt_lt)
      (.of_bounds rfl j.le_toInt j.toInt_lt)).mono fun h => by rw [Int16.toInt_inj.1 h]
  case ushort n m =>
    exact (fixed_reveals n.toNat_lt m.toNat_lt).mono fun h => by rw [UInt16.toNat_inj.1 h]

theorem pathed_reveals {xs ys : List Symbol} (hx : f.HoldsAll xs) (hy : f.HoldsAll ys)
    (ha : f.pathed op xs = .ok a) (hb : f.pathed op ys = .ok b) :
    Reveals a b (Forall₂ f.Same (f.writtenNames op xs) (f.writtenNames op ys)) := by
  unfold pathed at ha hb
  unfold writtenNames
  split at ha
  · rename_i hsingle
    rw [if_pos hsingle] at hb
    rw [if_pos hsingle, if_pos hsingle]
    match xs, ys with
    | x :: _, y :: _ =>
      cases ha
      cases hb
      exact (symbol_reveals (hx.2 x mem_cons_self) (hy.2 y mem_cons_self)).mono
        fun h => .cons h .nil
  · rename_i hall
    rw [if_neg hall] at hb
    rw [if_neg hall, if_neg hall]
    cases ha
    cases hb
    exact symbols_reveals hx hy

theorem source_reveals {x y : Option Symbol} (hx : ∀ s ∈ x, f.Holds s) (hy : ∀ s ∈ y, f.Holds s)
    (ha : f.source x = .ok a) (hb : f.source y = .ok b) :
    Reveals a b (f.version.writesFrameSource f.debug = true → Option.Rel f.Same x y) := by
  unfold source at ha hb
  split at ha
  · rename_i hwritten
    rw [if_pos hwritten] at hb
    match x, y with
    | some x, some y =>
      cases ha
      cases hb
      exact (symbol_reveals (hx x rfl) (hy y rfl)).mono fun h _ => .some h
  · rename_i hnot
    rw [if_neg hnot] at hb
    cases ha
    cases hb
    exact (Reveals.same []).mono fun _ h => absurd h hnot

theorem sizes_reveals {h h' : FrameHeader} (hh : h.InRange f) (hh' : h'.InRange f) :
    Reveals (f.sizes h) (f.sizes h') (h.depth.highest = h'.depth.highest ∧
      h.slots.localSize = h'.slots.localSize ∧ (f.version.has .splitStorage = true →
        h.slots.staticSize?.getD 0 = h'.slots.staticSize?.getD 0)) := by
  have hhighest : Reveals (f.signed 4 h.depth.highest) (f.signed 4 h'.depth.highest) _ :=
    signedWord_reveals hh.highest hh'.highest
  have hlocals : Reveals (f.count h.slots.localSize) (f.count h'.slots.localSize) _ :=
    count_reveals hh.locals hh'.locals
  unfold sizes
  split
  · exact ((hhighest.append fun _ => hlocals).append fun _ =>
      count_reveals hh.statics hh'.statics).mono fun ⟨⟨h1, h2⟩, h3⟩ => ⟨h1, h2, fun _ => h3⟩
  · rename_i hone
    exact (hlocals.append fun _ => hhighest).mono fun ⟨h1, h2⟩ =>
      ⟨h2, h1, fun hsplit => absurd hsplit hone⟩

theorem frameHeader_reveals {h h' : FrameHeader} {n m : Nat} (hh : h.InRange f) (hh' : h'.InRange f)
    (hn : n < 2 ^ 31) (hm : m < 2 ^ 31) (ha : f.frameHeader h n = .ok a)
    (hb : f.frameHeader h' m = .ok b) : Reveals a b (h.Agrees f h' ∧ n = m) := by
  unfold frameHeader at ha hb
  cases hx : f.source h.source with
  | error e => simp [hx, bind, Except.bind] at ha
  | ok x =>
    cases hy : f.source h'.source with
    | error e => simp [hy, bind, Except.bind] at hb
    | ok y =>
      simp only [hx, hy, bind, Except.bind, pure, Except.pure, Except.ok.injEq] at ha hb
      subst ha hb
      have hsource := source_reveals hh.source hh'.source hx hy
      have hrest := Reveals.guard (f.version.has .restFlag) fun _ => flag_reveals h.hasRest h'.hasRest
      exact ((((((Reveals.same _).append fun _ => hsource).append fun _ => hrest).append fun _ =>
        parameters_reveals hh.parameters hh'.parameters).append fun _ =>
        captured_reveals hh.captured hh'.captured).append fun _ =>
        sizes_reveals hh hh').append (fun _ => count_reveals hn hm) |>.mono
        fun ⟨⟨⟨⟨⟨⟨_, h1⟩, h2⟩, h3⟩, h4⟩, h5, h6, h7⟩, h8⟩ => ⟨⟨h1, h2, h3, h4, h5, h6, h7⟩, h8⟩

end Format

theorem Operation.subroutine_opcode_inj {n n' : Option Symbol} {g g' : Frame} {m m' : Bool}
    (h : (Operation.subroutine n g m).opcode = (Operation.subroutine n' g' m').opcode) :
    n.isSome = n'.isSome ∧ m = m' := by
  cases n <;> cases n' <;> cases m <;> cases m' <;> simp_all [opcode]

theorem Operation.operandBytes_reveal {x y : Operation} {i j : Nat} (hx : x.InRange f)
    (hy : y.InRange f) (hcode : x.opcode = y.opcode)
    (hframe : ∀ g ∈ x.frame?, ∀ g' ∈ y.frame?, ∀ c c', g.write f = .ok c → g'.write f = .ok c' →
      Reveals c c' (g.Agrees f g')) (ha : x.operandBytes f i = .ok a)
    (hb : y.operandBytes f j = .ok b) : Reveals a b (x.Agrees f y) := by
  have hlayout : x.layout = y.layout := by rw [← layout_opcode ha, ← layout_opcode hb, hcode]
  cases x <;> cases y <;> try cases hlayout
  case simple op op' =>
    obtain rfl := Simple.opcode_inj hcode
    cases ha
    cases hb
    exact (Reveals.same []).mono fun _ => .simple op
  case jump kind target kind' target' =>
    obtain rfl := Jump.opcode_inj hcode
    match target, target' with
    | some t, some t' =>
      cases ha
      cases hb
      refine (count_reveals (hx t rfl) (hy t' rfl)).mono ?_
      rintro rfl
      exact .jump kind (some t)
  case counted op n op' m =>
    obtain rfl := Counted.opcode_inj hcode
    cases ha
    cases hb
    refine (count_reveals hx hy).mono ?_
    rintro rfl
    exact .counted op n
  case named op x op' y =>
    obtain rfl := Named.opcode_inj hcode
    cases ha
    cases hb
    exact (symbol_reveals hx hy).mono (.named op)
  case pathed op xs op' ys =>
    obtain rfl := Pathed.opcode_inj hcode
    exact (pathed_reveals hx hy ha hb).mono (.pathed op)
  case «variable» reach xs slot reach' ys slot' =>
    obtain rfl := Reach.opcode_inj hcode
    cases ha
    cases hb
    refine ((symbols_reveals hx.1 hy.1).append fun _ =>
      signedWord_reveals hx.2 hy.2).mono ?_
    rintro ⟨hnames, rfl⟩
    exact .variable reach hnames slot
  case constant value value' =>
    cases ha
    cases hb
    refine (constant_reveals hcode).mono ?_
    rintro rfl
    exact .constant value
  case listAssign n c m d =>
    cases ha
    cases hb
    refine ((count_reveals hx hy).append fun _ => .guard _ fun _ =>
      flag_reveals c d).mono ?_
    rintro ⟨rfl, hrest⟩
    exact .listAssign n hrest
  case classDefine x xs y ys =>
    cases ha
    cases hb
    exact ((symbol_reveals hx.1 hy.1).append fun _ =>
      symbols_reveals hx.2 hy.2).mono fun ⟨hname, hbases⟩ => .classDefine hname hbases
  case importName xs t x ys u y =>
    cases ha
    cases hb
    exact (((symbols_reveals hx.1 hy.1).append fun _ =>
      symbol_reveals hx.2.1 hy.2.1).append fun _ => .guard _ fun _ =>
      symbol_reveals hx.2.2 hy.2.2).mono
      fun ⟨⟨hpath, htarget⟩, hname⟩ => .importName hpath htarget hname
  case leave n k n' k' =>
    cases ha
    cases hb
    refine ((signedWord_reveals hx.1 hy.1).append fun _ =>
      signedWord_reveals hx.2 hy.2).mono ?_
    rintro ⟨rfl, rfl⟩
    exact .leave n k
  case setState x y =>
    cases ha
    cases hb
    refine .of_length rfl fun h => ?_
    obtain rfl := RunState.code_inj (head_eq_of_cons_eq h)
    exact .setState x
  case setStateOld x y =>
    cases ha
    cases hb
    refine .of_length rfl fun h => ?_
    obtain rfl := RunState.code_inj (head_eq_of_cons_eq h)
    exact .setStateOld x
  case subroutine n g m n' g' m' =>
    obtain ⟨c, hc, rfl⟩ := map_eq_ok ha
    obtain ⟨c', hc', rfl⟩ := map_eq_ok hb
    have hbody := hframe g rfl g' rfl c c' hc hc'
    obtain ⟨hnamed, rfl⟩ := subroutine_opcode_inj hcode
    have hname : Reveals (n.elim [] f.symbol) (n'.elim [] f.symbol) (Option.Rel f.Same n n') := by
      match n, n', hnamed with
      | none, none, _ => exact (Reveals.same []).mono fun _ => .none
      | some x, some y, _ => exact (symbol_reveals (hx x rfl) (hy y rfl)).mono .some
    exact (hname.append fun _ => hbody).mono fun ⟨hn, hg⟩ => .subroutine m hn hg
  case unverified op op' => cases ha

mutual

/-- Written frames that start equal streams agree, and end at the same place. -/
theorem Frame.write_reveals : ∀ (x y : Frame) {a b : List UInt8}, x.InRange f → y.InRange f →
    x.write f = .ok a → y.write f = .ok b → Reveals a b (x.Agrees f y)
  | ⟨h, code⟩, ⟨h', code'⟩, a, b, hx, hy, ha, hb => by
    obtain ⟨head, hhead, ha⟩ := bind_eq_ok ha
    obtain ⟨body, hbody, ha⟩ := bind_eq_ok ha
    obtain ⟨head', hhead', hb⟩ := bind_eq_ok hb
    obtain ⟨body', hbody', hb⟩ := bind_eq_ok hb
    cases ha
    cases hb
    obtain ⟨hh, hsize, hops⟩ := hx _ (mem_cons_self)
    obtain ⟨hh', hsize', hops'⟩ := hy _ (mem_cons_self)
    exact ((frameHeader_reveals hh hh' hsize hsize' hhead hhead').append fun hheader =>
      writeCode_reveals code code' hheader.2 hops hops' (fun g hg => hx g (mem_cons_of_mem _ hg))
        (fun g hg => hy g (mem_cons_of_mem _ hg)) hbody hbody').mono
      fun ⟨hheader, hcode⟩ => .intro hheader.1 hcode

theorem writeCode_reveals : ∀ (xs ys : List Instruction) {i j : Nat} {a b : List UInt8},
    xs.length = ys.length → (∀ ins ∈ xs, ins.operation.InRange f) →
    (∀ ins ∈ ys, ins.operation.InRange f) → (∀ g ∈ framesOf xs, g.Own f) →
    (∀ g ∈ framesOf ys, g.Own f) → writeCode f i xs = .ok a → writeCode f j ys = .ok b →
    Reveals a b (Forall₂ (Instruction.Agrees f) xs ys)
  | [], [], i, j, a, b, _, _, _, _, _, ha, hb => by
    cases ha
    cases hb
    exact (Reveals.same []).mono fun _ => .nil
  | x :: xs, y :: ys, i, j, a, b, hl, hx, hy, hgx, hgy, ha, hb => by
    obtain ⟨first, hfirst, ha⟩ := bind_eq_ok ha
    obtain ⟨rest, hrest, ha⟩ := bind_eq_ok ha
    obtain ⟨first', hfirst', hb⟩ := bind_eq_ok hb
    obtain ⟨rest', hrest', hb⟩ := bind_eq_ok hb
    cases ha
    cases hb
    rw [List.forall_mem_cons] at hx hy
    rw [framesOf, List.forall_mem_append] at hgx hgy
    exact ((Instruction.write_reveals x y hx.1 hy.1 hgx.1 hgy.1 hfirst hfirst').append fun _ =>
      writeCode_reveals xs ys (Nat.succ.inj hl) hx.2 hy.2 hgx.2 hgy.2 hrest hrest').mono
      fun ⟨h, hs⟩ => .cons h hs

theorem Instruction.write_reveals : ∀ (x y : Instruction) {i j : Nat} {a b : List UInt8},
    x.operation.InRange f → y.operation.InRange f → (∀ g ∈ x.frames, g.Own f) →
    (∀ g ∈ y.frames, g.Own f) → x.write f i = .ok a → y.write f j = .ok b →
    Reveals a b (x.Agrees f y)
  | ⟨line, op⟩, ⟨line', op'⟩, i, j, a, b, hx, hy, hgx, hgy, ha, hb => by
    obtain ⟨c, hc, ha⟩ := bind_eq_ok ha
    obtain ⟨c', hc', hb⟩ := bind_eq_ok hb
    cases ha
    cases hb
    have hline : Reveals (f.fixed 4 line.toNat) (f.fixed 4 line'.toNat) (line = line') :=
      (Format.fixed_reveals line.toNat_lt line'.toNat_lt).mono UInt32.toNat_inj.1
    exact ((Reveals.guard f.debug fun _ => hline).append fun _ =>
      Operation.write_reveals op op' hx hy hgx hgy hc hc').mono fun ⟨hl, ho⟩ => .intro hl ho

theorem Operation.write_reveals : ∀ (x y : Operation) {i j : Nat} {a b : List UInt8},
    x.InRange f → y.InRange f → (∀ g ∈ x.frames, g.Own f) → (∀ g ∈ y.frames, g.Own f) →
    x.write f i = .ok a → y.write f j = .ok b → Reveals a b (x.Agrees f y)
  | x, y, i, j, a, b, hx, hy, hgx, hgy, ha, hb => by
    rw [write_eq] at ha hb
    obtain ⟨c, hc, rfl⟩ := map_eq_ok ha
    obtain ⟨c', hc', rfl⟩ := map_eq_ok hb
    have hopcode : Reveals [UInt8.ofNat x.opcode.ctorIdx] [UInt8.ofNat y.opcode.ctorIdx]
        (x.opcode = y.opcode) :=
      .of_length rfl fun h => opcode_of_byte (head_eq_of_cons_eq h)
    have hframe : ∀ g ∈ x.frame?, ∀ g' ∈ y.frame?, ∀ d d', g.write f = .ok d →
        g'.write f = .ok d' → Reveals d d' (g.Agrees f g') := by
      intro g hg g' hg' d d' hd hd'
      cases x <;> cases hg
      cases y <;> cases hg'
      exact Frame.write_reveals g g' hgx hgy hd hd'
    exact (hopcode.append fun h => operandBytes_reveal hx hy h hframe hc hc').mono And.right

end

namespace Format

theorem symbol_congr {x y : Symbol} (h : f.Same x y) : f.symbol x = f.symbol y := by
  unfold Same at h
  unfold symbol inlineName
  split
  · rename_i htable
    rw [if_pos htable] at h
    rw [h]
  · rename_i htable
    rw [if_neg htable] at h
    rw [h]

theorem flatMap_congr {xs ys : List Symbol} (h : Forall₂ f.Same xs ys) :
    xs.flatMap f.symbol = ys.flatMap f.symbol := by
  induction h with
  | nil => rfl
  | cons hxy _ ih => rw [flatMap_cons, flatMap_cons, symbol_congr hxy, ih]

theorem symbols_congr {xs ys : List Symbol} (h : Forall₂ f.Same xs ys) :
    f.symbols xs = f.symbols ys := by
  rw [symbols, symbols, h.length_eq, flatMap_congr h]

theorem indexed_congr {index : Nat → Int} {xs ys : List Symbol} (h : Forall₂ f.Same xs ys)
    (i : Nat) : f.indexed index i xs = f.indexed index i ys := by
  induction h generalizing i with
  | nil => rfl
  | cons hxy _ ih => rw [indexed, indexed, symbol_congr hxy, ih]

theorem parameters_congr {xs ys : List Symbol}
    (h : f.version.has .parameterList = true → Forall₂ f.Same xs ys) :
    f.parameters xs = f.parameters ys := by
  unfold parameters
  cases hlist : f.version.has .parameterList with
  | false => rfl
  | true =>
    have hxy := h hlist
    rw [hxy.length_eq, indexed_congr hxy, flatMap_congr hxy]

theorem captured_congr {xs ys : List Symbol}
    (h : f.version.has .capturedList = true → Forall₂ f.Same xs ys) :
    f.captured xs = f.captured ys := by
  unfold captured
  cases hlist : f.version.has .capturedList with
  | false => rfl
  | true =>
    have hxy := h hlist
    rw [hxy.length_eq, indexed_congr hxy]

theorem source_congr {x y : Option Symbol}
    (h : f.version.writesFrameSource f.debug = true → Option.Rel f.Same x y) :
    f.source x = f.source y := by
  unfold source
  split
  · rename_i hwritten
    cases h hwritten with
    | none => rfl
    | some hxy => simp only [symbol_congr hxy]
  · rfl

theorem frameHeader_congr {h h' : FrameHeader} (hh : h.Agrees f h') (n : Nat) :
    f.frameHeader h n = f.frameHeader h' n := by
  have hrest : (if f.version.has .restFlag then flag h.hasRest else []) =
      if f.version.has .restFlag then flag h'.hasRest else [] := by
    split
    · rename_i hflag
      rw [hh.hasRest hflag]
    · rfl
  have hsizes : f.sizes h = f.sizes h' := by
    unfold sizes
    split
    · rename_i hsplit
      rw [hh.highest, hh.locals, hh.statics hsplit]
    · rw [hh.highest, hh.locals]
  unfold frameHeader
  rw [source_congr hh.source, hrest, parameters_congr hh.parameters, captured_congr hh.captured,
    hsizes]

theorem pathed_congr {xs ys : List Symbol}
    (h : Forall₂ f.Same (f.writtenNames op xs) (f.writtenNames op ys)) :
    f.pathed op xs = f.pathed op ys := by
  unfold writtenNames at h
  unfold pathed
  split
  · rename_i hsingle
    rw [if_pos hsingle, if_pos hsingle] at h
    match xs, ys, h with
    | [], [], _ => rfl
    | x :: _, y :: _, .cons hxy _ => simp only [symbol_congr hxy]
  · rename_i hall
    rw [if_neg hall, if_neg hall] at h
    rw [symbols_congr h]

end Format

mutual

/-- What the agreement of two frames leaves open is not written. -/
theorem Frame.write_congr : ∀ (x y : Frame), x.Agrees f y → x.write f = y.write f
  | ⟨h, code⟩, ⟨h', code'⟩, .intro hheader hcode => by
    rw [Frame.write, Frame.write, hcode.length_eq, frameHeader_congr hheader,
      writeCode_congr code code' 0 hcode]

theorem writeCode_congr : ∀ (xs ys : List Instruction) (i : Nat),
    List.Forall₂ (Instruction.Agrees f) xs ys → writeCode f i xs = writeCode f i ys
  | [], [], _, _ => rfl
  | x :: xs, y :: ys, i, .cons h hs => by
    rw [writeCode, writeCode, Instruction.write_congr x y i h, writeCode_congr xs ys (i + 1) hs]

theorem Instruction.write_congr : ∀ (x y : Instruction) (i : Nat),
    x.Agrees f y → x.write f i = y.write f i
  | ⟨line, op⟩, ⟨line', op'⟩, i, .intro hline hop => by
    rw [Instruction.write, Instruction.write, Operation.write_congr op op' i hop]
    cases hdebug : f.debug with
    | false => rfl
    | true => rw [hline hdebug]

theorem Operation.write_congr : ∀ (x y : Operation) (i : Nat),
    x.Agrees f y → x.write f i = y.write f i
  | x, y, i, h => by
    cases h with
    | named op h => simp only [Operation.write, symbol_congr h]
    | pathed op h => simp only [Operation.write, pathed_congr h]
    | «variable» reach h slot => simp only [Operation.write, symbols_congr h]
    | listAssign n h =>
      cases hflag : f.version.has .restFlag with
      | false => simp only [Operation.write, hflag]; rfl
      | true => rw [h hflag]
    | classDefine hname hbases =>
      simp only [Operation.write, symbol_congr hname, symbols_congr hbases]
    | importName hpath htarget hname =>
      cases halias : f.version.has .importAlias with
      | false =>
        simp only [Operation.write, halias, symbols_congr hpath, symbol_congr htarget]
        rfl
      | true =>
        simp only [Operation.write, symbols_congr hpath, symbol_congr htarget,
          symbol_congr (hname halias)]
    | subroutine m hname hframe =>
      have hbody := Frame.write_congr _ _ hframe
      cases hname with
      | none => cases m <;> simp only [Operation.write, Operation.opcode, hbody]
      | some hxy =>
        cases m <;>
          simp only [Operation.write, Operation.opcode, hbody, symbol_congr hxy]
    | _ => rfl

end

theorem Format.script_ok {t : SymbolTable} {x : Frame} {c : List UInt8}
    (h : f.script t x = .ok c) : ∃ a, x.write f = .ok a ∧ c = f.header t ++ a := by
  obtain ⟨a, ha, hc⟩ := bind_eq_ok h
  exact ⟨a, ha, (Except.ok.inj hc).symm⟩

theorem Format.header_reveals {t u : SymbolTable}
    (ht : f.version.has .symbolTable = true → HoldsTable t)
    (hu : f.version.has .symbolTable = true → HoldsTable u) :
    Reveals (f.header t) (f.header u) (f.version.has .symbolTable = true → t.stored = u.stored) :=
  ((Reveals.same _).append fun _ => .guard _ fun htable =>
    symbolTable_reveals (ht htable) (hu htable)).mono And.right

theorem Format.header_congr {t u : SymbolTable}
    (h : f.version.has .symbolTable = true → t.stored = u.stored) : f.header t = f.header u := by
  unfold header
  cases htable : f.version.has .symbolTable with
  | false => rfl
  | true =>
    have hstored := h htable
    have hsize : t.entries.size = u.entries.size := by
      simpa [SymbolTable.stored] using congrArg List.length hstored
    have hentry (v : SymbolTable) : v.entries.toList.flatMap tableEntry =
        v.stored.flatMap fun name => Varint.encode name.length ++ name := by
      rw [SymbolTable.stored, flatMap_map]
      rfl
    rw [symbolTable, symbolTable, hentry, hentry, hsize, hstored]

/-- In one format, streams that start with the bytes of two frames are equal exactly if the frames
agree on all that the version writes and the streams go on equally. The same holds for containers
and their symbol tables, so a container determines the stored names and the root frame. -/
theorem container_uniquely_decodable (f : Format) {x y : Frame} {a b : List UInt8}
    (hx : x.InRange f) (hy : y.InRange f) (ha : x.write f = .ok a) (hb : y.write f = .ok b) :
    (∀ r s, a ++ r = b ++ s ↔ x.Agrees f y ∧ r = s) ∧
      ∀ (t u : SymbolTable) (c d : List UInt8),
        (f.version.has .symbolTable = true → Format.HoldsTable t ∧ Format.HoldsTable u) →
        f.script t x = .ok c → f.script u y = .ok d →
        ∀ r s, c ++ r = d ++ s ↔
          ((f.version.has .symbolTable = true → t.stored = u.stored) ∧ x.Agrees f y) ∧ r = s := by
  have hframes := Frame.write_reveals x y hx hy ha hb
  have hsame (hxy : x.Agrees f y) : a = b := by
    have := Frame.write_congr x y hxy
    rw [ha, hb] at this
    exact Except.ok.inj this
  refine ⟨fun r s => ⟨hframes r s, ?_⟩, fun t u c d htables hc hd r s => ?_⟩
  · rintro ⟨hxy, rfl⟩
    rw [hsame hxy]
  · obtain ⟨a', ha', rfl⟩ := Format.script_ok hc
    obtain ⟨b', hb', rfl⟩ := Format.script_ok hd
    obtain rfl : a = a' := Except.ok.inj (ha.symm.trans ha')
    obtain rfl : b = b' := Except.ok.inj (hb.symm.trans hb')
    refine ⟨(Format.header_reveals (fun h => (htables h).1) fun h => (htables h).2).append
      (fun _ => hframes) r s, ?_⟩
    rintro ⟨⟨hstored, hxy⟩, rfl⟩
    rw [Format.header_congr hstored, hsame hxy]

/-- Frames that differ in source lines only are written alike where lines are not written. -/
theorem agrees_without_lines :
    let f : Format := ⟨⟨12, by decide⟩, .big, false⟩
    let inner : Frame := ⟨{ slots := .empty .latestCommon, source := none }, [⟨0, .setState .exit⟩]⟩
    let frame (line : UInt32) : Frame := ⟨{ slots := .empty .latestCommon, source := none },
      [⟨line, .subroutine (some ⟨3, "f", false⟩) inner false⟩, ⟨line, .jump .always (some 0)⟩]⟩
    (∀ line, (frame line).InRange f) ∧
      ∃ bytes, (frame 1).write f = .ok bytes ∧ (frame 2).write f = .ok bytes ∧
        (frame 1).Agrees f (frame 2) := by
  intro f inner frame
  have hheader : FrameHeader.InRange f { slots := .empty .latestCommon, source := none } :=
    ⟨by simp, ⟨by simp, by simp⟩, ⟨by simp, by simp⟩, by decide, by decide, by decide⟩
  have hrange (line : UInt32) : (frame line).InRange f := by
    intro g hg
    have hname : f.Holds ⟨3, "f", false⟩ := by
      rw [Format.Holds, if_pos (by decide)]
      decide
    simp only [frame, inner, Frame.preorder, framesOf, Instruction.frames, Operation.frames,
      List.append_nil, List.mem_cons, List.not_mem_nil, or_false] at hg
    rcases hg with rfl | rfl
    · exact ⟨hheader, by simp, by simpa [Operation.InRange] using hname⟩
    · exact ⟨hheader, by decide, by simp [Operation.InRange]⟩
  refine ⟨hrange, _, rfl, rfl, ?_⟩
  exact (((container_uniquely_decodable f (hrange 1) (hrange 2) rfl rfl).1 [] []).1 rfl).1

end Adhoc
