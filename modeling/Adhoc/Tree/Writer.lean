import Adhoc.Json.Value
import Adhoc.Text.Decimal
import Adhoc.Tree.Basic

namespace Adhoc

def Loc.toJson (loc : Loc) : Json :=
  .object [("line", .number (.int loc.line.toNat)), ("column", .number (.int loc.column.toNat))]

/-- A double that is not finite is not a number of JSON. -/
def doubleToJson (bits : UInt64) : Json :=
  match FloatFormat.double.parts bits.toNat with
  | .finite _ _ _ => .number (.real bits)
  | _ => .null

/-- Every single is a double. -/
def singleToJson (bits : UInt32) : Json := doubleToJson (Float32.ofBits bits).toFloat.toBits

namespace Literal

def kind : Literal → String
  | .nil => "Nil"
  | .bool _ => "Bool"
  | .int _ => "Int"
  | .uint _ => "UInt"
  | .long _ => "Long"
  | .ulong _ => "ULong"
  | .float _ => "Float"
  | .double _ => "Double"
  | .byte _ => "Byte"
  | .ubyte _ => "UByte"
  | .short _ => "Short"
  | .ushort _ => "UShort"
  | .symbol _ => "Symbol"
  | .string _ => "String"

def valueToJson : Literal → Option Json
  | .nil => none
  | .bool b => some (.bool b)
  | .int i => some (.number (.int i.toInt))
  | .uint n => some (.number (.int n.toNat))
  | .long i => some (.number (.int i.toInt))
  | .ulong n => some (.number (.int n.toNat))
  | .float bits => some (singleToJson bits)
  | .double bits => some (doubleToJson bits)
  | .byte i => some (.number (.int i.toInt))
  | .ubyte n => some (.number (.int n.toNat))
  | .short i => some (.number (.int i.toInt))
  | .ushort n => some (.number (.int n.toNat))
  | .symbol s => some (.string s)
  | .string s => some (.string s)

def toJson (l : Literal) : Json :=
  .object (("kind", .string l.kind) :: l.valueToJson.toList.map ("value", ·))

end Literal

def Quasi.toJson (q : Quasi) : Json :=
  .object [("loc", q.loc.toJson), ("cooked", .string q.text), ("has_hex_escape", .bool q.hexEscaped)]

def textToJson : Option String → Json
  | none => .null
  | some s => .string s

/-- A node of the given kind. -/
def nodeObject (kind : String) (loc : Loc) (fields : List (String × Json)) : Json :=
  .object (("type", .string kind) :: ("loc", loc.toJson) :: fields)

mutual

def Expr.toJson : Expr → Json
  | .ident loc name => nodeObject "Identifier" loc [("name", .string name)]
  | .function loc f => nodeObject "FunctionExpression" loc f.fields
  | .method loc f => nodeObject "MethodExpression" loc f.fields
  | .arrow loc f => nodeObject "ArrowFunctionExpression" loc f.fields
  | .call loc callee arguments =>
    nodeObject "CallExpression" loc [("callee", callee.toJson), ("arguments", .array (exprsToJson arguments))]
  | .unary loc op argument =>
    nodeObject "UnaryExpression" loc [("operator", .string op.text), ("argument", argument.toJson)]
  | .update loc op before argument =>
    nodeObject "UpdateExpression" loc
      [("operator", .string op.text), ("prefix", .bool before), ("argument", argument.toJson)]
  | .binary loc op left right =>
    nodeObject "BinaryExpression" loc
      [("operator", .string op.text), ("left", left.toJson), ("right", right.toJson)]
  | .logical loc op left right =>
    nodeObject "LogicalExpression" loc
      [("operator", .string op.text), ("left", left.toJson), ("right", right.toJson)]
  | .literal loc value => nodeObject "Literal" loc [("value", value.toJson)]
  | .array loc elements => nodeObject "ArrayExpression" loc [("elements", .array (holesToJson elements))]
  | .map loc entries => nodeObject "MapExpression" loc [("elements", .array (pairsToJson entries))]
  | .element loc object property optional =>
    nodeObject "ComputedMemberExpression" loc
      [("object", object.toJson), ("property", property.toJson), ("optional", .bool optional)]
  | .path loc object property =>
    nodeObject "StaticMemberExpression" loc [("object", object.toJson), ("property", property.toJson)]
  | .attribute loc object property optional =>
    nodeObject "AttributeMemberExpression" loc
      [("object", object.toJson), ("property", property.toJson), ("optional", .bool optional)]
  | .selector loc object property =>
    nodeObject "ObjectSelectorMemberExpression" loc
      [("object", object.toJson), ("property", property.toJson)]
  | .assign loc op left right =>
    nodeObject "AssignmentExpression" loc
      [("operator", .string op.text), ("left", left.toJson), ("right", right.toJson)]
  | .assignPattern loc left right =>
    nodeObject "AssignmentPattern" loc [("left", left.toJson), ("right", right.toJson)]
  | .arrayPattern loc elements => nodeObject "ArrayPattern" loc [("elements", .array (exprsToJson elements))]
  | .rest loc argument => nodeObject "RestElement" loc [("argument", argument.toJson)]
  | .conditional loc test consequent alternate =>
    nodeObject "ConditionalExpression" loc
      [("test", test.toJson), ("consequent", consequent.toJson), ("alternate", alternate.toJson)]
  | .template loc quasis expressions =>
    nodeObject "TemplateLiteral" loc
      [("quasis", .array (quasis.map Quasi.toJson)), ("expressions", .array (exprsToJson expressions))]
  | .tagged loc parts => nodeObject "TaggedTemplateExpression" loc [("parts", .array (exprsToJson parts))]
  | .sequence loc expressions =>
    nodeObject "SequenceExpression" loc [("expressions", .array (exprsToJson expressions))]
  | .staticDecl loc declaration =>
    nodeObject "StaticDeclaration" loc [("declaration", declaration.toJson)]
  | .attributeDecl loc declaration =>
    nodeObject "AttributeDeclaration" loc [("declaration", declaration.toJson)]
  | .classDef loc c => nodeObject "ClassExpression" loc c.fields
  | .importName loc specifiers target asName =>
    nodeObject "ImportExpression" loc
      [("specifiers", .array (exprsToJson specifiers)), ("target", .string target), ("alias", textToJson asName)]
  | .yield loc => nodeObject "YieldExpression" loc []
  | .await loc argument => nodeObject "AwaitExpression" loc [("argument", argument.toJson)]
  | .spread loc argument => nodeObject "SpreadElement" loc [("argument", argument.toJson)]
  | .selfRef loc => nodeObject "SelfExpression" loc []

def exprsToJson : List Expr → List Json
  | [] => []
  | e :: rest => e.toJson :: exprsToJson rest

def holeToJson : Option Expr → Json
  | none => .null
  | some e => e.toJson

def holesToJson : List (Option Expr) → List Json
  | [] => []
  | e :: rest => holeToJson e :: holesToJson rest

def pairToJson : Expr × Expr → Json
  | (key, value) => .array [key.toJson, value.toJson]

def pairsToJson : List (Expr × Expr) → List Json
  | [] => []
  | p :: rest => pairToJson p :: pairsToJson rest

def Routine.fields : Routine → List (String × Json)
  | ⟨id, params, body⟩ =>
    [("id", holeToJson id), ("params", .array (exprsToJson params)), ("body", body.toJson)]

def ClassDef.fields : ClassDef → List (String × Json)
  | ⟨id, superClass, body, isModule⟩ =>
    [("id", id.toJson), ("super_class", holeToJson superClass), ("body", .array (stmtsToJson body)),
      ("is_module", .bool isModule)]

def Node.toJson : Node → Json
  | .stmt s => s.toJson
  | .expr e => e.toJson

def nodeHoleToJson : Option Node → Json
  | none => .null
  | some n => n.toJson

def Declarator.toJson : Declarator → Json
  | ⟨loc, id, init⟩ => .object [("loc", loc.toJson), ("id", holeToJson id), ("init", holeToJson init)]

def declaratorsToJson : List Declarator → List Json
  | [] => []
  | d :: rest => d.toJson :: declaratorsToJson rest

def SwitchCase.toJson : SwitchCase → Json
  | ⟨loc, test, consequent⟩ =>
    .object [("loc", loc.toJson), ("test", holeToJson test), ("consequent", .array (stmtsToJson consequent))]

def casesToJson : List SwitchCase → List Json
  | [] => []
  | c :: rest => c.toJson :: casesToJson rest

def CatchClause.toJson : CatchClause → Json
  | ⟨loc, param, body⟩ =>
    .object [("loc", loc.toJson), ("param", holeToJson param), ("body", body.toJson)]

def clauseHoleToJson : Option CatchClause → Json
  | none => .null
  | some c => c.toJson

def Stmt.toJson : Stmt → Json
  | .classDef loc c => nodeObject "ClassDeclaration" loc c.fields
  | .function loc f => nodeObject "FunctionDeclaration" loc f.fields
  | .method loc f => nodeObject "MethodDeclaration" loc f.fields
  | .forLoop loc init test update body =>
    nodeObject "ForStatement" loc
      [("init", nodeHoleToJson init), ("test", holeToJson test), ("update", holeToJson update),
        ("body", body.toJson)]
  | .foreach loc left right body =>
    nodeObject "ForeachStatement" loc
      [("left", left.toJson), ("right", right.toJson), ("body", body.toJson)]
  | .whileLoop loc test body =>
    nodeObject "WhileStatement" loc [("test", test.toJson), ("body", body.toJson)]
  | .doWhile loc body test =>
    nodeObject "DoWhileStatement" loc [("body", body.toJson), ("test", test.toJson)]
  | .declare loc declarations =>
    nodeObject "VariableDeclaration" loc [("declarations", .array (declaratorsToJson declarations))]
  | .returnValue loc argument => nodeObject "ReturnStatement" loc [("argument", holeToJson argument)]
  | .importName loc specifiers target asName =>
    nodeObject "ImportDeclaration" loc
      [("specifiers", .array (exprsToJson specifiers)), ("target", .string target), ("alias", textToJson asName)]
  | .ifElse loc test consequent alternate =>
    nodeObject "IfStatement" loc
      [("test", test.toJson), ("consequent", consequent.toJson), ("alternate", stmtHoleToJson alternate)]
  | .block loc body => nodeObject "BlockStatement" loc [("body", .array (stmtsToJson body))]
  | .expression loc value => nodeObject "ExpressionStatement" loc [("expression", value.toJson)]
  | .switch loc discriminant cases =>
    nodeObject "SwitchStatement" loc
      [("discriminant", discriminant.toJson), ("cases", .array (casesToJson cases))]
  | .continueLoop loc label => nodeObject "ContinueStatement" loc [("label", textToJson label)]
  | .breakOut loc label => nodeObject "BreakStatement" loc [("label", textToJson label)]
  | .labeled loc label body =>
    nodeObject "LabeledStatement" loc [("label", .string label), ("body", body.toJson)]
  | .includeFile loc path => nodeObject "IncludeStatement" loc [("path", .string path)]
  | .require loc argument => nodeObject "RequireStatement" loc [("argument", argument.toJson)]
  | .throw loc argument => nodeObject "ThrowStatement" loc [("argument", argument.toJson)]
  | .finalizer loc body => nodeObject "FinalizerStatement" loc [("body", body.toJson)]
  | .tryCatch loc block handler finalizer =>
    nodeObject "TryStatement" loc
      [("block", block.toJson), ("handler", clauseHoleToJson handler), ("finalizer", stmtHoleToJson finalizer)]
  | .undef loc name => nodeObject "UndefStatement" loc [("name", .string name)]
  | .sourceFile loc path => nodeObject "SourceFileStatement" loc [("path", .string path)]
  | .moduleConstructor loc id body =>
    nodeObject "ModuleConstructorStatement" loc [("id", id.toJson), ("body", body.toJson)]
  | .print loc arguments => nodeObject "PrintStatement" loc [("arguments", .array (exprsToJson arguments))]
  | .delegate loc id => nodeObject "DelegateDeclaration" loc [("id", id.toJson)]
  | .empty loc => nodeObject "EmptyStatement" loc []

def stmtsToJson : List Stmt → List Json
  | [] => []
  | s :: rest => s.toJson :: stmtsToJson rest

def stmtHoleToJson : Option Stmt → Json
  | none => .null
  | some s => s.toJson

end

def Program.toJson (p : Program) : Json := .object [("body", .array (stmtsToJson p.body))]

end Adhoc
