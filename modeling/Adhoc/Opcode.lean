namespace Adhoc

/-- Opcodes in wire order. Three of them can be named but have no known operand layout, so they are
never written. -/
inductive Opcode
  | arrayConstOld
  | assignOld
  | attributeDefine
  | attributePush
  | binaryAssign
  | binary
  | call
  | classDefine
  | eval
  | floatConst
  | functionDefine
  | importName
  | intConst
  | jump
  | jumpIfTrue
  | jumpIfFalse
  | listAssignOld
  | localDefine
  | logicalAndOld
  | logicalOrOld
  | methodDefine
  | moduleDefine
  | nilConst
  | nop
  | popOld
  | print
  | require
  | setStateOld
  | staticDefine
  | stringConst
  | stringPush
  | throw
  | tryCatch
  | unaryAssign
  | unary
  | undef
  | variablePush
  | attributeEval
  | variableEval
  | sourceFile
  | functionConst
  | methodConst
  | mapConstOld
  | longConst
  | assign
  | listAssign
  | callOld
  | objectSelector
  | symbolConst
  | leave
  | arrayConst
  | arrayPush
  | mapConst
  | mapInsert
  | pop
  | setState
  | voidConst
  | assignPop
  | uintConst
  | ulongConst
  | doubleConst
  | elementPush
  | elementEval
  | logicalAnd
  | logicalOr
  | boolConst
  | moduleConstructor
  | vaCall
  | codeEval
  | delegateDefine
  | logicalOptional
  | jumpIfNil
  | byteConst
  | ubyteConst
  | shortConst
  | ushortConst
  | jumpIfNotNil
  | jumpNotNil
deriving DecidableEq, Repr

namespace Opcode

def name : Opcode → String
  | .arrayConstOld => "ARRAY_CONST_OLD"
  | .assignOld => "ASSIGN_OLD"
  | .attributeDefine => "ATTRIBUTE_DEFINE"
  | .attributePush => "ATTRIBUTE_PUSH"
  | .binaryAssign => "BINARY_ASSIGN_OPERATOR"
  | .binary => "BINARY_OPERATOR"
  | .call => "CALL"
  | .classDefine => "CLASS_DEFINE"
  | .eval => "EVAL"
  | .floatConst => "FLOAT_CONST"
  | .functionDefine => "FUNCTION_DEFINE"
  | .importName => "IMPORT"
  | .intConst => "INT_CONST"
  | .jump => "JUMP"
  | .jumpIfTrue => "JUMP_IF_TRUE"
  | .jumpIfFalse => "JUMP_IF_FALSE"
  | .listAssignOld => "LIST_ASSIGN_OLD"
  | .localDefine => "LOCAL_DEFINE"
  | .logicalAndOld => "LOGICAL_AND_OLD"
  | .logicalOrOld => "LOGICAL_OR_OLD"
  | .methodDefine => "METHOD_DEFINE"
  | .moduleDefine => "MODULE_DEFINE"
  | .nilConst => "NIL_CONST"
  | .nop => "NOP"
  | .popOld => "POP_OLD"
  | .print => "PRINT"
  | .require => "REQUIRE"
  | .setStateOld => "SET_STATE_OLD"
  | .staticDefine => "STATIC_DEFINE"
  | .stringConst => "STRING_CONST"
  | .stringPush => "STRING_PUSH"
  | .throw => "THROW"
  | .tryCatch => "TRY_CATCH"
  | .unaryAssign => "UNARY_ASSIGN_OPERATOR"
  | .unary => "UNARY_OPERATOR"
  | .undef => "UNDEF"
  | .variablePush => "VARIABLE_PUSH"
  | .attributeEval => "ATTRIBUTE_EVAL"
  | .variableEval => "VARIABLE_EVAL"
  | .sourceFile => "SOURCE_FILE"
  | .functionConst => "FUNCTION_CONST"
  | .methodConst => "METHOD_CONST"
  | .mapConstOld => "MAP_CONST_OLD"
  | .longConst => "LONG_CONST"
  | .assign => "ASSIGN"
  | .listAssign => "LIST_ASSIGN"
  | .callOld => "CALL_OLD"
  | .objectSelector => "OBJECT_SELECTOR"
  | .symbolConst => "SYMBOL_CONST"
  | .leave => "LEAVE"
  | .arrayConst => "ARRAY_CONST"
  | .arrayPush => "ARRAY_PUSH"
  | .mapConst => "MAP_CONST"
  | .mapInsert => "MAP_INSERT"
  | .pop => "POP"
  | .setState => "SET_STATE"
  | .voidConst => "VOID_CONST"
  | .assignPop => "ASSIGN_POP"
  | .uintConst => "U_INT_CONST"
  | .ulongConst => "U_LONG_CONST"
  | .doubleConst => "DOUBLE_CONST"
  | .elementPush => "ELEMENT_PUSH"
  | .elementEval => "ELEMENT_EVAL"
  | .logicalAnd => "LOGICAL_AND"
  | .logicalOr => "LOGICAL_OR"
  | .boolConst => "BOOL_CONST"
  | .moduleConstructor => "MODULE_CONSTRUCTOR"
  | .vaCall => "VA_CALL"
  | .codeEval => "CODE_EVAL"
  | .delegateDefine => "DELEGATE_DEFINE"
  | .logicalOptional => "LOGICAL_OPTIONAL"
  | .jumpIfNil => "JUMP_IF_NIL"
  | .byteConst => "BYTE_CONST"
  | .ubyteConst => "U_BYTE_CONST"
  | .shortConst => "SHORT_CONST"
  | .ushortConst => "U_SHORT_CONST"
  | .jumpIfNotNil => "JUMP_IF_NOT_NIL"
  | .jumpNotNil => "JUMP_NOT_NIL"

def all : List Opcode := [
  .arrayConstOld, .assignOld, .attributeDefine, .attributePush, .binaryAssign, .binary, .call,
  .classDefine, .eval, .floatConst, .functionDefine, .importName, .intConst, .jump, .jumpIfTrue,
  .jumpIfFalse, .listAssignOld, .localDefine, .logicalAndOld, .logicalOrOld, .methodDefine,
  .moduleDefine, .nilConst, .nop, .popOld, .print, .require, .setStateOld, .staticDefine,
  .stringConst, .stringPush, .throw, .tryCatch, .unaryAssign, .unary, .undef, .variablePush,
  .attributeEval, .variableEval, .sourceFile, .functionConst, .methodConst, .mapConstOld,
  .longConst, .assign, .listAssign, .callOld, .objectSelector, .symbolConst, .leave, .arrayConst,
  .arrayPush, .mapConst, .mapInsert, .pop, .setState, .voidConst, .assignPop, .uintConst,
  .ulongConst, .doubleConst, .elementPush, .elementEval, .logicalAnd, .logicalOr, .boolConst,
  .moduleConstructor, .vaCall, .codeEval, .delegateDefine, .logicalOptional, .jumpIfNil,
  .byteConst, .ubyteConst, .shortConst, .ushortConst, .jumpIfNotNil, .jumpNotNil]

def ofName? (text : String) : Option Opcode := all.find? fun op => op.name == text

def hasEncoding : Opcode → Bool
  | .localDefine | .jumpIfNotNil | .jumpNotNil => false
  | _ => true

/-- The byte that stands for the opcode in a container. -/
def code? (op : Opcode) : Option UInt8 :=
  if op.hasEncoding then some (UInt8.ofNat op.ctorIdx) else none

theorem mem_all (op : Opcode) : op ∈ all := by cases op <;> decide

end Opcode
end Adhoc
