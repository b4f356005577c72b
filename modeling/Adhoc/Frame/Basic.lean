import Adhoc.Depth
import Adhoc.Slots

namespace Adhoc

/-- How the interpreter goes on with a frame. -/
inductive RunState
  | exit
  | return
  | yield
  | exception
  | call
  | run
deriving DecidableEq, Repr

namespace RunState

def name : RunState → String
  | .exit => "Exit"
  | .return => "Return"
  | .yield => "Yield"
  | .exception => "Exception"
  | .call => "Call"
  | .run => "Run"

def all : List RunState := [.exit, .return, .yield, .exception, .call, .run]

def ofName? (text : String) : Option RunState := all.find? fun s => s.name == text

def code (s : RunState) : UInt8 := UInt8.ofNat s.ctorIdx

end RunState

/-- Operations without operands. -/
inductive Simple
  | assignOld
  | eval
  | nilConst
  | nop
  | popOld
  | require
  | throw
  | assign
  | objectSelector
  | arrayPush
  | mapConst
  | mapInsert
  | pop
  | voidConst
  | assignPop
  | elementPush
  | elementEval
  | moduleConstructor
  | codeEval
  | logicalOptional
deriving DecidableEq, Repr

def Simple.opcode : Simple → Opcode
  | .assignOld => .assignOld
  | .eval => .eval
  | .nilConst => .nilConst
  | .nop => .nop
  | .popOld => .popOld
  | .require => .require
  | .throw => .throw
  | .assign => .assign
  | .objectSelector => .objectSelector
  | .arrayPush => .arrayPush
  | .mapConst => .mapConst
  | .mapInsert => .mapInsert
  | .pop => .pop
  | .voidConst => .voidConst
  | .assignPop => .assignPop
  | .elementPush => .elementPush
  | .elementEval => .elementEval
  | .moduleConstructor => .moduleConstructor
  | .codeEval => .codeEval
  | .logicalOptional => .logicalOptional

/-- Operations that carry a jump target. -/
inductive Jump
  | always
  | ifTrue
  | ifFalse
  | ifNil
  | andOld
  | orOld
  | and
  | or
  | tryCatch
deriving DecidableEq, Repr

def Jump.opcode : Jump → Opcode
  | .always => .jump
  | .ifTrue => .jumpIfTrue
  | .ifFalse => .jumpIfFalse
  | .ifNil => .jumpIfNil
  | .andOld => .logicalAndOld
  | .orOld => .logicalOrOld
  | .and => .logicalAnd
  | .or => .logicalOr
  | .tryCatch => .tryCatch

/-- Operations that carry a number of stack values. -/
inductive Counted
  | arrayConstOld
  | call
  | listAssignOld
  | print
  | stringPush
  | mapConstOld
  | callOld
  | arrayConst
  | vaCall
deriving DecidableEq, Repr

def Counted.opcode : Counted → Opcode
  | .arrayConstOld => .arrayConstOld
  | .call => .call
  | .listAssignOld => .listAssignOld
  | .print => .print
  | .stringPush => .stringPush
  | .mapConstOld => .mapConstOld
  | .callOld => .callOld
  | .arrayConst => .arrayConst
  | .vaCall => .vaCall

/-- Operations that carry one symbol. -/
inductive Named
  | attributeDefine
  | binaryAssign
  | binary
  | staticDefine
  | stringConst
  | unaryAssign
  | unary
  | sourceFile
  | symbolConst
  | delegateDefine
deriving DecidableEq, Repr

def Named.opcode : Named → Opcode
  | .attributeDefine => .attributeDefine
  | .binaryAssign => .binaryAssign
  | .binary => .binary
  | .staticDefine => .staticDefine
  | .stringConst => .stringConst
  | .unaryAssign => .unaryAssign
  | .unary => .unary
  | .sourceFile => .sourceFile
  | .symbolConst => .symbolConst
  | .delegateDefine => .delegateDefine

/-- Operations that carry a list of symbols. -/
inductive Pathed
  | attributePush
  | moduleDefine
  | undef
  | attributeEval
deriving DecidableEq, Repr

def Pathed.opcode : Pathed → Opcode
  | .attributePush => .attributePush
  | .moduleDefine => .moduleDefine
  | .undef => .undef
  | .attributeEval => .attributeEval

/-- Whether a variable is pushed as the target of an assignment or evaluated. -/
inductive Reach
  | push
  | eval
deriving DecidableEq, Repr

def Reach.opcode : Reach → Opcode
  | .push => .variablePush
  | .eval => .variableEval

/-- Constants other than text. Floats are kept as their bit patterns. -/
inductive Constant
  | int (value : Int32)
  | uint (value : UInt32)
  | long (value : Int64)
  | ulong (value : UInt64)
  | float (bits : UInt32)
  | double (bits : UInt64)
  | bool (value : Bool)
  | byte (value : Int8)
  | ubyte (value : UInt8)
  | short (value : Int16)
  | ushort (value : UInt16)
deriving DecidableEq, Repr

def Constant.opcode : Constant → Opcode
  | .int _ => .intConst
  | .uint _ => .uintConst
  | .long _ => .longConst
  | .ulong _ => .ulongConst
  | .float _ => .floatConst
  | .double _ => .doubleConst
  | .bool _ => .boolConst
  | .byte _ => .byteConst
  | .ubyte _ => .ubyteConst
  | .short _ => .shortConst
  | .ushort _ => .ushortConst

/-- All of a frame except its code. -/
structure FrameHeader where
  parameters : List Symbol := []
  /-- Locals of the enclosing frame that the code uses; number `k` has index `-(k + 1)`. -/
  captured : List Symbol := []
  slots : Slots
  depth : Depth := {}
  source : Option Symbol
  /-- Whether some `return` stands outside all inner scopes. -/
  returnsAtTop : Bool := false
  hasRest : Bool := false
  isRoot : Bool := true
  /-- The slots as they were when each instruction was appended. They are a record of the
  compilation: nothing in a container depends on them. -/
  moments : Array Slots := #[]
deriving DecidableEq, Repr

mutual

inductive Operation
  | simple (op : Simple)
  | jump (kind : Jump) (target : Option Nat)
  | counted (op : Counted) (count : Nat)
  | named (op : Named) (symbol : Symbol)
  | pathed (op : Pathed) (names : List Symbol)
  | variable (reach : Reach) (names : List Symbol) (index : Int)
  | constant (value : Constant)
  | listAssign (count : Nat) (hasRest : Bool)
  | classDefine (name : Symbol) (bases : List Symbol)
  | importName (path : List Symbol) (target asName : Symbol)
  | leave (modules rewind : Int)
  | setState (state : RunState)
  | setStateOld (state : RunState)
  /-- A definition if it has a name, else a value. -/
  | subroutine (name : Option Symbol) (frame : Frame) (isMethod : Bool)
  | unverified (op : Opcode)

structure Instruction where
  line : UInt32
  operation : Operation

structure Frame where
  header : FrameHeader
  code : List Instruction

end

namespace Operation

def opcode : Operation → Opcode
  | .simple op => op.opcode
  | .jump kind _ => kind.opcode
  | .counted op _ => op.opcode
  | .named op _ => op.opcode
  | .pathed op _ => op.opcode
  | .variable reach _ _ => reach.opcode
  | .constant value => value.opcode
  | .listAssign _ _ => .listAssign
  | .classDefine _ _ => .classDefine
  | .importName _ _ _ => .importName
  | .leave _ _ => .leave
  | .setState _ => .setState
  | .setStateOld _ => .setStateOld
  | .subroutine (some _) _ false => .functionDefine
  | .subroutine (some _) _ true => .methodDefine
  | .subroutine none _ false => .functionConst
  | .subroutine none _ true => .methodConst
  | .unverified op => op

/-- The target of a jump: `some none` while it is open. -/
def target? : Operation → Option (Option Nat)
  | .jump _ target => some target
  | _ => none

/-- The operation with its jump target set, if it is a jump. -/
def withTarget? (target : Nat) : Operation → Option Operation
  | .jump kind _ => some (.jump kind (some target))
  | _ => none

end Operation

mutual

/-- The frame and all frames below it, in the order of the instructions that define them. -/
def Frame.preorder : Frame → List Frame
  | ⟨header, code⟩ => ⟨header, code⟩ :: framesOf code

def framesOf : List Instruction → List Frame
  | [] => []
  | ins :: rest => ins.frames ++ framesOf rest

def Instruction.frames : Instruction → List Frame
  | ⟨_, op⟩ => op.frames

def Operation.frames : Operation → List Frame
  | .subroutine _ frame _ => frame.preorder
  | _ => []

end

end Adhoc
