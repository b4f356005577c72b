import Adhoc.Tree.Operator

namespace Adhoc

structure Loc where
  line : UInt32 := 0
  column : UInt32 := 0
deriving DecidableEq, Repr

/-- A literal. Floats are kept as their bit patterns. -/
inductive Literal
  | nil
  | bool (value : Bool)
  | int (value : Int32)
  | uint (value : UInt32)
  | long (value : Int64)
  | ulong (value : UInt64)
  | float (bits : UInt32)
  | double (bits : UInt64)
  | byte (value : Int8)
  | ubyte (value : UInt8)
  | short (value : Int16)
  | ushort (value : UInt16)
  | symbol (name : String)
  | string (text : String)
deriving DecidableEq, Repr

/-- A stretch of text in a template. -/
structure Quasi where
  loc : Loc
  text : String
  hexEscaped : Bool
deriving DecidableEq, Repr

mutual

inductive Expr
  | ident (loc : Loc) (name : String)
  | function (loc : Loc) (routine : Routine)
  | method (loc : Loc) (routine : Routine)
  | arrow (loc : Loc) (routine : Routine)
  | call (loc : Loc) (callee : Expr) (arguments : List Expr)
  | unary (loc : Loc) (op : UnaryOp) (argument : Expr)
  | update (loc : Loc) (op : UpdateOp) (before : Bool) (argument : Expr)
  | binary (loc : Loc) (op : BinaryOp) (left right : Expr)
  | logical (loc : Loc) (op : LogicalOp) (left right : Expr)
  | literal (loc : Loc) (value : Literal)
  /-- `[a, , b]`; a hole is `none`. -/
  | array (loc : Loc) (elements : List (Option Expr))
  | map (loc : Loc) (entries : List (Expr × Expr))
  /-- `a[b]`, or `a?[b]`. -/
  | element (loc : Loc) (object property : Expr) (optional : Bool)
  /-- `a::b` -/
  | path (loc : Loc) (object property : Expr)
  /-- `a.b`, or `a?.b`. -/
  | attribute (loc : Loc) (object property : Expr) (optional : Bool)
  /-- `a.(b)` -/
  | selector (loc : Loc) (object property : Expr)
  | assign (loc : Loc) (op : AssignOp) (left right : Expr)
  | assignPattern (loc : Loc) (left right : Expr)
  | arrayPattern (loc : Loc) (elements : List Expr)
  | rest (loc : Loc) (argument : Expr)
  | conditional (loc : Loc) (test consequent alternate : Expr)
  | template (loc : Loc) (quasis : List Quasi) (expressions : List Expr)
  /-- Templates that stand next to each other and make one string. -/
  | tagged (loc : Loc) (parts : List Expr)
  | sequence (loc : Loc) (expressions : List Expr)
  | staticDecl (loc : Loc) (declaration : Expr)
  | attributeDecl (loc : Loc) (declaration : Expr)
  | classDef (loc : Loc) (definition : ClassDef)
  | importName (loc : Loc) (specifiers : List Expr) (target : String) (asName : Option String)
  | yield (loc : Loc)
  | await (loc : Loc) (argument : Expr)
  | spread (loc : Loc) (argument : Expr)
  | selfRef (loc : Loc)

inductive Stmt
  | classDef (loc : Loc) (definition : ClassDef)
  | function (loc : Loc) (routine : Routine)
  | method (loc : Loc) (routine : Routine)
  | forLoop (loc : Loc) (init : Option Node) (test update : Option Expr) (body : Stmt)
  | foreach (loc : Loc) (left : Node) (right : Expr) (body : Stmt)
  | whileLoop (loc : Loc) (test : Expr) (body : Stmt)
  | doWhile (loc : Loc) (body : Stmt) (test : Expr)
  | declare (loc : Loc) (declarators : List Declarator)
  | returnValue (loc : Loc) (argument : Option Expr)
  | importName (loc : Loc) (specifiers : List Expr) (target : String) (asName : Option String)
  | ifElse (loc : Loc) (test : Expr) (consequent : Stmt) (alternate : Option Stmt)
  | block (loc : Loc) (body : List Stmt)
  | expression (loc : Loc) (value : Expr)
  | switch (loc : Loc) (discriminant : Expr) (cases : List SwitchCase)
  | continueLoop (loc : Loc) (label : Option String)
  | breakOut (loc : Loc) (label : Option String)
  | labeled (loc : Loc) (label : String) (body : Stmt)
  | includeFile (loc : Loc) (path : String)
  | require (loc : Loc) (argument : Expr)
  | throw (loc : Loc) (argument : Expr)
  | finalizer (loc : Loc) (body : Expr)
  | tryCatch (loc : Loc) (block : Stmt) (handler : Option CatchClause) (finalizer : Option Stmt)
  | undef (loc : Loc) (name : String)
  | sourceFile (loc : Loc) (path : String)
  | moduleConstructor (loc : Loc) (id : Expr) (body : Stmt)
  | print (loc : Loc) (arguments : List Expr)
  | delegate (loc : Loc) (id : Expr)
  | empty (loc : Loc)

/-- A place that holds a statement or an expression, such as the body of a lambda. -/
inductive Node
  | stmt (statement : Stmt)
  | expr (expression : Expr)

structure Routine where
  id : Option Expr
  params : List Expr
  body : Node

structure ClassDef where
  id : Expr
  superClass : Option Expr
  body : List Stmt
  isModule : Bool

structure Declarator where
  loc : Loc
  id : Option Expr
  init : Option Expr

/-- A case of a `switch`; the default case has no test. -/
structure SwitchCase where
  loc : Loc
  test : Option Expr
  consequent : List Stmt

structure CatchClause where
  loc : Loc
  param : Option Expr
  body : Stmt

end

structure Program where
  body : List Stmt

namespace Expr

def loc : Expr → Loc
  | .ident loc _ | .function loc _ | .method loc _ | .arrow loc _ | .call loc _ _
  | .unary loc _ _ | .update loc _ _ _ | .binary loc _ _ _ | .logical loc _ _ _ | .literal loc _
  | .array loc _ | .map loc _ | .element loc _ _ _ | .path loc _ _ | .attribute loc _ _ _
  | .selector loc _ _ | .assign loc _ _ _ | .assignPattern loc _ _ | .arrayPattern loc _
  | .rest loc _ | .conditional loc _ _ _ | .template loc _ _ | .tagged loc _ | .sequence loc _
  | .staticDecl loc _ | .attributeDecl loc _ | .classDef loc _ | .importName loc _ _ _
  | .yield loc | .await loc _ | .spread loc _ | .selfRef loc => loc

/-- The name of the node's kind, as the tree format spells it. -/
def kind : Expr → String
  | .ident .. => "Identifier"
  | .function .. => "FunctionExpression"
  | .method .. => "MethodExpression"
  | .arrow .. => "ArrowFunctionExpression"
  | .call .. => "CallExpression"
  | .unary .. => "UnaryExpression"
  | .update .. => "UpdateExpression"
  | .binary .. => "BinaryExpression"
  | .logical .. => "LogicalExpression"
  | .literal .. => "Literal"
  | .array .. => "ArrayExpression"
  | .map .. => "MapExpression"
  | .element .. => "ComputedMemberExpression"
  | .path .. => "StaticMemberExpression"
  | .attribute .. => "AttributeMemberExpression"
  | .selector .. => "ObjectSelectorMemberExpression"
  | .assign .. => "AssignmentExpression"
  | .assignPattern .. => "AssignmentPattern"
  | .arrayPattern .. => "ArrayPattern"
  | .rest .. => "RestElement"
  | .conditional .. => "ConditionalExpression"
  | .template .. => "TemplateLiteral"
  | .tagged .. => "TaggedTemplateExpression"
  | .sequence .. => "SequenceExpression"
  | .staticDecl .. => "StaticDeclaration"
  | .attributeDecl .. => "AttributeDeclaration"
  | .classDef .. => "ClassExpression"
  | .importName .. => "ImportExpression"
  | .yield .. => "YieldExpression"
  | .await .. => "AwaitExpression"
  | .spread .. => "SpreadElement"
  | .selfRef .. => "SelfExpression"

def ident? : Expr → Option String
  | .ident _ name => some name
  | _ => none

/-- The parts of a path `a::b::c`, the outermost first. Parts that are no names are left out. -/
def pathParts : Expr → List String
  | .path _ object property =>
    (match object with
      | .path .. => object.pathParts
      | .ident _ name => [name]
      | _ => []) ++ property.ident?.toList
  | _ => []

/-- The name of an identifier or a path, its parts joined by `::`. -/
def pathName? : Expr → Option String
  | .ident _ name => some name
  | e => if e.pathParts.isEmpty then none else some ("::".intercalate e.pathParts)

end Expr

namespace Stmt

def loc : Stmt → Loc
  | .classDef loc _ | .function loc _ | .method loc _ | .forLoop loc _ _ _ _ | .foreach loc _ _ _
  | .whileLoop loc _ _ | .doWhile loc _ _ | .declare loc _ | .returnValue loc _
  | .importName loc _ _ _ | .ifElse loc _ _ _ | .block loc _ | .expression loc _ | .switch loc _ _
  | .continueLoop loc _ | .breakOut loc _ | .labeled loc _ _ | .includeFile loc _ | .require loc _
  | .throw loc _ | .finalizer loc _ | .tryCatch loc _ _ _ | .undef loc _ | .sourceFile loc _
  | .moduleConstructor loc _ _ | .print loc _ | .delegate loc _ | .empty loc => loc

/-- The name of the node's kind, as the tree format spells it. -/
def kind : Stmt → String
  | .classDef .. => "ClassDeclaration"
  | .function .. => "FunctionDeclaration"
  | .method .. => "MethodDeclaration"
  | .forLoop .. => "ForStatement"
  | .foreach .. => "ForeachStatement"
  | .whileLoop .. => "WhileStatement"
  | .doWhile .. => "DoWhileStatement"
  | .declare .. => "VariableDeclaration"
  | .returnValue .. => "ReturnStatement"
  | .importName .. => "ImportDeclaration"
  | .ifElse .. => "IfStatement"
  | .block .. => "BlockStatement"
  | .expression .. => "ExpressionStatement"
  | .switch .. => "SwitchStatement"
  | .continueLoop .. => "ContinueStatement"
  | .breakOut .. => "BreakStatement"
  | .labeled .. => "LabeledStatement"
  | .includeFile .. => "IncludeStatement"
  | .require .. => "RequireStatement"
  | .throw .. => "ThrowStatement"
  | .finalizer .. => "FinalizerStatement"
  | .tryCatch .. => "TryStatement"
  | .undef .. => "UndefStatement"
  | .sourceFile .. => "SourceFileStatement"
  | .moduleConstructor .. => "ModuleConstructorStatement"
  | .print .. => "PrintStatement"
  | .delegate .. => "DelegateDeclaration"
  | .empty .. => "EmptyStatement"

end Stmt

def Node.loc : Node → Loc
  | .stmt s => s.loc
  | .expr e => e.loc

end Adhoc
