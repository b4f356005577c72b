import Adhoc.Frame.Basic

namespace Adhoc

/-- A pop followed by a push is not the same as no effect: it can move the low mark of the depth. -/
def Simple.effect : Simple → List Move
  | .nilConst | .mapConst | .voidConst => [.push 1]
  | .pop | .popOld | .assign | .require | .arrayPush | .moduleConstructor | .throw => [.pop 1]
  | .assignPop | .mapInsert => [.pop 2]
  | .assignOld | .objectSelector | .elementPush | .elementEval => [.pop 2, .push 1]
  | .eval | .nop | .codeEval | .logicalOptional => []

def Jump.effect : Jump → List Move
  | .ifTrue | .ifFalse | .ifNil | .and | .or => [.pop 1]
  | .andOld | .orOld => [.pop 1, .push 1]
  | .always | .tryCatch => []

def Counted.effect (count : Nat) : Counted → List Move
  | .arrayConst | .listAssignOld | .print | .mapConstOld => [.push 1]
  | .call | .callOld => [.pop 1, .pop count, .push 1]
  | .vaCall => [.pop 2, .push 1]
  | .arrayConstOld | .stringPush => [.pop count, .push 1]

def Named.effect (v : Version) : Named → List Move
  | .stringConst | .symbolConst => [.push 1]
  | .attributeDefine => if v.has .attributeDefinePops then [.pop 1] else []
  | .unaryAssign | .unary => [.pop 1, .push 1]
  | .binaryAssign | .binary => [.pop 2, .push 1]
  | .staticDefine | .sourceFile | .delegateDefine => []

def Pathed.effect : Pathed → List Move
  | .attributePush => [.pop 1, .push 1]
  | .moduleDefine | .undef | .attributeEval => []

def RunState.effect : RunState → List Move
  | .return | .yield => [.pop 1]
  | _ => []

/-- A definition consumes parameter defaults and captured values; a closure is then a value. -/
def Frame.effect (v : Version) (frame : Frame) (isValue : Bool) : List Move :=
  (if v.has .subroutineConsumesStack then
    [.pop frame.header.parameters.length, .pop frame.header.captured.length] else []) ++
  if isValue then [.push 1] else []

def Operation.effect (v : Version) : Operation → Except Defect (List Move)
  | .simple op => .ok op.effect
  | .jump kind _ => .ok kind.effect
  | .counted op count => .ok (op.effect count)
  | .named op _ => .ok (op.effect v)
  | .pathed op _ => .ok op.effect
  | .variable _ _ _ | .constant _ => .ok [.push 1]
  | .listAssign count _ => .ok [.pop count, .pop 1, .push 1]
  | .setState state => .ok state.effect
  | .subroutine name frame _ => .ok (frame.effect v name.isNone)
  | .classDefine _ _ | .importName _ _ _ | .leave _ _ | .setStateOld _ => .ok []
  | .unverified op => .error (.noEffect op)

end Adhoc
