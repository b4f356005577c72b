import Adhoc.Json.Number
import Adhoc.Tree.Basic

namespace Adhoc

def Json.word? (j : Json) : Option UInt32 :=
  (j.intBetween? 0 0xFFFFFFFF).map fun i => UInt32.ofNat i.toNat

def Loc.ofJson? (j : Json) : Option Loc := do
  let fields ← j.fields? ["line", "column"]
  let line ← fields.required "line" Json.word?
  let column ← fields.withDefault "column" 0 Json.word?
  pure ⟨line, column⟩

def Literal.ofKind? (kind : String) (value : Option Json) : Option Literal :=
  match kind with
  | "Nil" => match value with
    | none | some .null => some .nil
    | _ => none
  | "Bool" => value.bind Json.bool? |>.map .bool
  | "Int" => value.bind (Json.signed? 31) |>.map fun i => .int (Int32.ofInt i)
  | "UInt" => value.bind (Json.unsigned? 32) |>.map fun n => .uint (UInt32.ofNat n)
  | "Long" => value.bind (Json.signed? 63) |>.map fun i => .long (Int64.ofInt i)
  | "ULong" => value.bind (Json.unsigned? 64) |>.map fun n => .ulong (UInt64.ofNat n)
  | "Float" => value.bind Json.number? |>.map fun n => .float n.toSingle
  | "Double" => value.bind Json.number? |>.map fun n => .double n.toDouble
  | "Byte" => value.bind (Json.signed? 7) |>.map fun i => .byte (Int8.ofInt i)
  | "UByte" => value.bind (Json.unsigned? 8) |>.map fun n => .ubyte (UInt8.ofNat n)
  | "Short" => value.bind (Json.signed? 15) |>.map fun i => .short (Int16.ofInt i)
  | "UShort" => value.bind (Json.unsigned? 16) |>.map fun n => .ushort (UInt16.ofNat n)
  | "Symbol" => value.bind Json.string? |>.map .symbol
  | "String" => value.bind Json.string? |>.map .string
  | _ => none

def Literal.ofJson? : Json → Option Literal
  | .object fields => do
    let kind ← Entries.required fields "kind" Json.name?
    let value ← Entries.once? fields "value"
    Literal.ofKind? kind value
  | .array [kind, value] => do
    let kind ← kind.name?
    Literal.ofKind? kind (some value)
  | _ => none

def Quasi.ofJson? (j : Json) : Option Quasi := do
  let fields ← j.fields? ["loc", "cooked", "has_hex_escape"]
  let loc ← fields.withDefault "loc" {} Loc.ofJson?
  let text ← fields.required "cooked" Json.string?
  let hexEscaped ← fields.withDefault "has_hex_escape" false Json.bool?
  pure ⟨loc, text, hexEscaped⟩

def quasisOfJson? (j : Json) : Option (List Quasi) := j.array?.bind (·.mapM Quasi.ofJson?)

/-- What a JSON value reads as. -/
structure View where
  json : Json
  expr? : Option Expr := none
  stmt? : Option Stmt := none
  declarator? : Option Declarator := none
  case? : Option SwitchCase := none
  clause? : Option CatchClause := none
  pair? : Option (Expr × Expr) := none
  exprs? : Option (List Expr) := none
  holes? : Option (List (Option Expr)) := none
  pairs? : Option (List (Expr × Expr)) := none
  stmts? : Option (List Stmt) := none
  declarators? : Option (List Declarator) := none
  cases? : Option (List SwitchCase) := none

namespace View

/-- A statement if it reads as one, else an expression. -/
def node? (v : View) : Option Node := (v.stmt?.map .stmt).or (v.expr?.map .expr)

/-- An expression or nothing. -/
def hole? (v : View) : Option (Option Expr) :=
  if v.json.isNull then some none else v.expr?.map some

def asPair? : List View → Option (Expr × Expr)
  | [key, value] => do
    let key ← key.expr?
    let value ← value.expr?
    pure (key, value)
  | _ => none

/-- The views of an object's fields. -/
abbrev Fields := Entries View

namespace Fields

/-- A field that may be missing or null. -/
def optional {α : Type} (fields : Fields) (key : String) (read : View → Option α) :
    Option (Option α) :=
  fields.withDefault key none fun value =>
    if value.json.isNull then some none else (read value).map some

def text? (v : View) : Option String := v.json.string?

def name? (v : View) : Option String := v.json.name?

def flag? (v : View) : Option Bool := v.json.bool?

def kind? (fields : Fields) : Option String := fields.required "type" text?

def loc? (fields : Fields) : Option Loc := fields.withDefault "loc" {} fun v => Loc.ofJson? v.json

def routine? (fields : Fields) : Option Routine := do
  let id ← fields.optional "id" (·.expr?)
  let params ← fields.withDefault "params" [] (·.exprs?)
  let body ← fields.required "body" (·.node?)
  pure ⟨id, params, body⟩

def classDef? (fields : Fields) : Option ClassDef := do
  let id ← fields.required "id" (·.expr?)
  let superClass ← fields.optional "super_class" (·.expr?)
  let body ← fields.withDefault "body" [] (·.stmts?)
  let isModule ← fields.withDefault "is_module" false flag?
  pure ⟨id, superClass, body, isModule⟩

def expr? (fields : Fields) : Option Expr := do
  let kind ← fields.kind?
  let loc ← fields.loc?
  match kind with
  | "Identifier" => return .ident loc (← fields.required "name" text?)
  | "FunctionExpression" => return .function loc (← fields.routine?)
  | "MethodExpression" => return .method loc (← fields.routine?)
  | "ArrowFunctionExpression" => return .arrow loc (← fields.routine?)
  | "CallExpression" =>
    let callee ← fields.required "callee" (·.expr?)
    return .call loc callee (← fields.withDefault "arguments" [] (·.exprs?))
  | "UnaryExpression" =>
    let op ← (← fields.required "operator" name?) |> UnaryOp.ofText?
    return .unary loc op (← fields.required "argument" (·.expr?))
  | "UpdateExpression" =>
    let op ← (← fields.required "operator" name?) |> UpdateOp.ofText?
    let before ← fields.required "prefix" flag?
    return .update loc op before (← fields.required "argument" (·.expr?))
  | "BinaryExpression" =>
    let op ← (← fields.required "operator" name?) |> BinaryOp.ofText?
    let left ← fields.required "left" (·.expr?)
    return .binary loc op left (← fields.required "right" (·.expr?))
  | "LogicalExpression" =>
    let op ← (← fields.required "operator" name?) |> LogicalOp.ofText?
    let left ← fields.required "left" (·.expr?)
    return .logical loc op left (← fields.required "right" (·.expr?))
  | "Literal" => return .literal loc (← fields.required "value" fun v => Literal.ofJson? v.json)
  | "ArrayExpression" => return .array loc (← fields.required "elements" (·.holes?))
  | "MapExpression" => return .map loc (← fields.required "elements" (·.pairs?))
  | "ComputedMemberExpression" =>
    let object ← fields.required "object" (·.expr?)
    let property ← fields.required "property" (·.expr?)
    return .element loc object property (← fields.withDefault "optional" false flag?)
  | "StaticMemberExpression" =>
    let object ← fields.required "object" (·.expr?)
    return .path loc object (← fields.required "property" (·.expr?))
  | "AttributeMemberExpression" =>
    let object ← fields.required "object" (·.expr?)
    let property ← fields.required "property" (·.expr?)
    return .attribute loc object property (← fields.withDefault "optional" false flag?)
  | "ObjectSelectorMemberExpression" =>
    let object ← fields.required "object" (·.expr?)
    return .selector loc object (← fields.required "property" (·.expr?))
  | "AssignmentExpression" =>
    let op ← (← fields.required "operator" name?) |> AssignOp.ofText?
    let left ← fields.required "left" (·.expr?)
    return .assign loc op left (← fields.required "right" (·.expr?))
  | "AssignmentPattern" =>
    let left ← fields.required "left" (·.expr?)
    return .assignPattern loc left (← fields.required "right" (·.expr?))
  | "ArrayPattern" => return .arrayPattern loc (← fields.required "elements" (·.exprs?))
  | "RestElement" => return .rest loc (← fields.required "argument" (·.expr?))
  | "ConditionalExpression" =>
    let test ← fields.required "test" (·.expr?)
    let consequent ← fields.required "consequent" (·.expr?)
    return .conditional loc test consequent (← fields.required "alternate" (·.expr?))
  | "TemplateLiteral" =>
    let quasis ← fields.required "quasis" fun v => quasisOfJson? v.json
    return .template loc quasis (← fields.withDefault "expressions" [] (·.exprs?))
  | "TaggedTemplateExpression" => return .tagged loc (← fields.required "parts" (·.exprs?))
  | "SequenceExpression" => return .sequence loc (← fields.required "expressions" (·.exprs?))
  | "StaticDeclaration" => return .staticDecl loc (← fields.required "declaration" (·.expr?))
  | "AttributeDeclaration" => return .attributeDecl loc (← fields.required "declaration" (·.expr?))
  | "ClassExpression" => return .classDef loc (← fields.classDef?)
  | "ImportExpression" =>
    let specifiers ← fields.required "specifiers" (·.exprs?)
    let target ← fields.required "target" text?
    return .importName loc specifiers target (← fields.optional "alias" text?)
  | "YieldExpression" => return .yield loc
  | "AwaitExpression" => return .await loc (← fields.required "argument" (·.expr?))
  | "SpreadElement" => return .spread loc (← fields.required "argument" (·.expr?))
  | "SelfExpression" => return .selfRef loc
  | _ => none

def stmt? (fields : Fields) : Option Stmt := do
  let kind ← fields.kind?
  let loc ← fields.loc?
  match kind with
  | "ClassDeclaration" => return .classDef loc (← fields.classDef?)
  | "FunctionDeclaration" => return .function loc (← fields.routine?)
  | "MethodDeclaration" => return .method loc (← fields.routine?)
  | "ForStatement" =>
    let init ← fields.optional "init" (·.node?)
    let test ← fields.optional "test" (·.expr?)
    let update ← fields.optional "update" (·.expr?)
    return .forLoop loc init test update (← fields.required "body" (·.stmt?))
  | "ForeachStatement" =>
    let left ← fields.required "left" (·.node?)
    let right ← fields.required "right" (·.expr?)
    return .foreach loc left right (← fields.required "body" (·.stmt?))
  | "WhileStatement" =>
    let test ← fields.required "test" (·.expr?)
    return .whileLoop loc test (← fields.required "body" (·.stmt?))
  | "DoWhileStatement" =>
    let body ← fields.required "body" (·.stmt?)
    return .doWhile loc body (← fields.required "test" (·.expr?))
  | "VariableDeclaration" => return .declare loc (← fields.required "declarations" (·.declarators?))
  | "ReturnStatement" => return .returnValue loc (← fields.optional "argument" (·.expr?))
  | "ImportDeclaration" =>
    let specifiers ← fields.required "specifiers" (·.exprs?)
    let target ← fields.required "target" text?
    return .importName loc specifiers target (← fields.optional "alias" text?)
  | "IfStatement" =>
    let test ← fields.required "test" (·.expr?)
    let consequent ← fields.required "consequent" (·.stmt?)
    return .ifElse loc test consequent (← fields.optional "alternate" (·.stmt?))
  | "BlockStatement" => return .block loc (← fields.required "body" (·.stmts?))
  | "ExpressionStatement" => return .expression loc (← fields.required "expression" (·.expr?))
  | "SwitchStatement" =>
    let discriminant ← fields.required "discriminant" (·.expr?)
    return .switch loc discriminant (← fields.required "cases" (·.cases?))
  | "ContinueStatement" => return .continueLoop loc (← fields.optional "label" text?)
  | "BreakStatement" => return .breakOut loc (← fields.optional "label" text?)
  | "LabeledStatement" =>
    let label ← fields.required "label" text?
    return .labeled loc label (← fields.required "body" (·.stmt?))
  | "IncludeStatement" => return .includeFile loc (← fields.required "path" text?)
  | "RequireStatement" => return .require loc (← fields.required "argument" (·.expr?))
  | "ThrowStatement" => return .throw loc (← fields.required "argument" (·.expr?))
  | "FinalizerStatement" => return .finalizer loc (← fields.required "body" (·.expr?))
  | "TryStatement" =>
    let block ← fields.required "block" (·.stmt?)
    let handler ← fields.optional "handler" (·.clause?)
    return .tryCatch loc block handler (← fields.optional "finalizer" (·.stmt?))
  | "UndefStatement" => return .undef loc (← fields.required "name" text?)
  | "SourceFileStatement" => return .sourceFile loc (← fields.required "path" text?)
  | "ModuleConstructorStatement" =>
    let id ← fields.required "id" (·.expr?)
    return .moduleConstructor loc id (← fields.required "body" (·.stmt?))
  | "PrintStatement" => return .print loc (← fields.required "arguments" (·.exprs?))
  | "DelegateDeclaration" => return .delegate loc (← fields.required "id" (·.expr?))
  | "EmptyStatement" => return .empty loc
  | _ => none

def declarator? (fields : Fields) : Option Declarator := do
  let loc ← fields.loc?
  let id ← fields.optional "id" (·.expr?)
  let init ← fields.optional "init" (·.expr?)
  pure ⟨loc, id, init⟩

def case? (fields : Fields) : Option SwitchCase := do
  let loc ← fields.loc?
  let test ← fields.optional "test" (·.expr?)
  let consequent ← fields.withDefault "consequent" [] (·.stmts?)
  pure ⟨loc, test, consequent⟩

def clause? (fields : Fields) : Option CatchClause := do
  let loc ← fields.loc?
  let param ← fields.optional "param" (·.expr?)
  let body ← fields.required "body" (·.stmt?)
  pure ⟨loc, param, body⟩

end Fields

/-- The fields that the items give in order. -/
def keyed? (keys : List String) (items : List View) : Option Fields :=
  if items.length ≤ keys.length then some (keys.zip items) else none

def ofItems (json : Json) (items : List View) : View where
  json := json
  declarator? := (keyed? ["loc", "id", "init"] items).bind Fields.declarator?
  case? := (keyed? ["loc", "test", "consequent"] items).bind Fields.case?
  clause? := (keyed? ["loc", "param", "body"] items).bind Fields.clause?
  pair? := asPair? items
  exprs? := items.mapM (·.expr?)
  holes? := items.mapM hole?
  pairs? := items.mapM (·.pair?)
  stmts? := items.mapM (·.stmt?)
  declarators? := items.mapM (·.declarator?)
  cases? := items.mapM (·.case?)

def ofFields (json : Json) (fields : Fields) : View where
  json := json
  expr? := fields.expr?
  stmt? := fields.stmt?
  declarator? := fields.declarator?
  case? := fields.case?
  clause? := fields.clause?

mutual

def ofJson : Json → View
  | .array items => ofItems (.array items) (ofJsons items)
  | .object fields => ofFields (.object fields) (ofJsonFields fields)
  | json => { json := json }

def ofJsons : List Json → List View
  | [] => []
  | j :: rest => ofJson j :: ofJsons rest

def ofJsonFields : List (String × Json) → List (String × View)
  | [] => []
  | field :: rest => ofJsonField field :: ofJsonFields rest

def ofJsonField : String × Json → String × View
  | (key, value) => (key, ofJson value)

end

end View

def Stmt.ofJson? (j : Json) : Option Stmt := (View.ofJson j).stmt?

def Expr.ofJson? (j : Json) : Option Expr := (View.ofJson j).expr?

end Adhoc
