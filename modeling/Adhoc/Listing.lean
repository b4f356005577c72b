import Adhoc.Frame.Basic
import Adhoc.Text.Decimal
import Adhoc.Text.Quoted

namespace Adhoc

def Constant.text : Constant → String
  | .int i => toString i.toInt
  | .uint n => toString n.toNat
  | .long i => toString i.toInt
  | .ulong n => toString n.toNat
  | .float bits => FloatFormat.single.text bits.toNat
  | .double bits => FloatFormat.double.text bits.toNat
  | .bool b => if b then "true" else "false"
  | .byte i => toString i.toInt
  | .ubyte n => toString n.toNat
  | .short i => toString i.toInt
  | .ushort n => toString n.toNat

def namesText (names : List Symbol) : String := ",".intercalate (names.map (·.name))

def Counted.operandName : Counted → String
  | .call | .callOld | .vaCall => "args"
  | .arrayConst | .arrayConstOld => "size"
  | .listAssignOld | .print | .mapConstOld | .stringPush => "count"

def Named.operandText (s : Symbol) : Named → String
  | .stringConst | .symbolConst => quoted s.name
  | _ => s.name

def Operation.operandText : Operation → String
  | .simple _ | .unverified _ => ""
  | .jump _ (some target) => s!" -> {target}"
  | .jump _ none => " -> ?"
  | .counted op n => " " ++ op.operandName ++ "=" ++ toString n
  | .named op s => " " ++ op.operandText s
  | .pathed _ names => " " ++ namesText names
  | .variable _ names index => " " ++ namesText names ++ s!" [{index}]"
  | .constant value => " " ++ value.text
  | .listAssign n hasRest => s!" count={n}" ++ if hasRest then " rest" else ""
  | .classDefine name bases => " " ++ name.name ++ " : " ++ namesText bases
  | .importName path target asName =>
    " " ++ namesText path ++ " " ++ target.name ++ " as " ++ asName.name
  | .leave modules rewind => s!" module={modules} rewind={rewind}"
  | .setState state | .setStateOld state => " " ++ state.name
  | .subroutine (some name) _ _ => " " ++ name.name
  | .subroutine none _ _ => ""

def Operation.text (op : Operation) : String := op.opcode.name ++ op.operandText

def padLeft (width : Nat) (s : String) : String :=
  String.ofList (List.replicate (width - s.length) ' ') ++ s

def padRight (width : Nat) (s : String) : String :=
  s ++ String.ofList (List.replicate (width - s.length) ' ')

/-- The line of an instruction, with its source line if asked for. -/
def listingLine (lines : Bool) (depth index : Nat) (line : UInt32) (op : Operation) : String :=
  String.ofList (List.replicate (4 * depth) ' ') ++ padLeft 3 (toString index) ++
    (if lines then " @" ++ padRight 4 (toString line.toNat) ++ " " else " ") ++ op.text ++ "\n"

mutual

def Frame.list (lines : Bool) (depth : Nat) : Frame → List String
  | ⟨_, code⟩ => listCode lines depth 0 code

def listCode (lines : Bool) (depth index : Nat) : List Instruction → List String
  | [] => []
  | ins :: rest => ins.list lines depth index ++ listCode lines depth (index + 1) rest

def Instruction.list (lines : Bool) (depth index : Nat) : Instruction → List String
  | ⟨line, op⟩ => listingLine lines depth index line op :: op.listInside lines depth

def Operation.listInside (lines : Bool) (depth : Nat) : Operation → List String
  | .subroutine _ frame _ => frame.list lines (depth + 1)
  | _ => []

end

/-- The whole listing. A name may hold line breaks of its own. -/
def Frame.listing (frame : Frame) (lines : Bool) : String := "".intercalate (frame.list lines 0)

/-- The lines of a text, each without the line feed at its end. -/
def textLines (text : String) : List String :=
  let parts := text.splitOn "\n"
  if parts.getLast? == some "" then parts.dropLast else parts

end Adhoc
