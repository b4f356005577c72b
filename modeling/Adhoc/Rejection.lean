import Adhoc.Tree.Basic

namespace Adhoc

inductive Cause
  | unsupportedExpression (kind : String)
  | continueOutsideLoop
  | breakOutsideLoop
  | undefinedLabel (label : String)
  | labelInScope (label : String)
  | labelNotOnLoop (label : String)
  | invalidClassName
  | classNameIsPath
  | staticClass
  | tryNotBlock
  | catchNotBlock
  | catchParameterNotName
  | forInit
  | foreachLeft
  | secondDefault
  | notAStatement
  | subroutineWithoutName
  | subroutineBodyNotBlock
  | methodDefined (name : String)
  | subroutineDefined (name : String)
  | parameterAssignment
  | parameterDefault
  | invalidParameter
  | emptyImport
  | aliasedWildcard
  | includeNotFound (path : String)
  | includeUnreadable (path : String)
  | emptyPattern
  | patternElement
  | declarationWithoutName
  | declarationNotName
  | variableNamedNil
  | staticDefined (name : String)
  | staticNotAssignment
  | staticNotName
  | attributeDefined
  | attributeNotAssignment
  | attributeNotName
  | delegateDefined (name : String)
  | finalizerHasName
  | finalizerHasParameters
  | finalizerLambdaHasParameters
  | finalizerNotFunction
  | arrayHole
  | invalidAttribute
  | attributePropertyNotName
  | unaryOnSelector
  | unaryOperand (kind : String)
  | assignmentOperator (text : String)
  | assignmentTarget (kind : String)
  | variadicWithoutTarget
  | variadicWithoutArguments
  | spreadArgument
  /-- The rest need a later version. -/
  | foreachUnsupported
  | mapUnsupported
  | selfUnsupported
  | restUnsupported
  | delegateUnsupported
  | optionalElementUnsupported
  | optionalAttributeUnsupported
  | coalesceUnsupported
  | parameterDefaultUnsupported
  | attributeDefaultUnsupported
  | literalUnsupported (what : String) (since : Nat)
deriving DecidableEq, Repr

def Cause.message : Cause → String
  | .unsupportedExpression kind => "Expression " ++ kind ++ " not supported"
  | .continueOutsideLoop => "Continue keyword must be in a loop or break context."
  | .breakOutsideLoop => "Break keyword must be in a loop or break context."
  | .undefinedLabel label => "Undefined label '" ++ label ++ "'."
  | .labelInScope label => "Label '" ++ label ++ "' is already in scope."
  | .labelNotOnLoop label => "Label '" ++ label ++ "' must precede a loop statement."
  | .invalidClassName => "Class or module name must have a valid identifier."
  | .classNameIsPath =>
    "Class name must be an identifier without a scope path and not static (::)."
  | .staticClass => "Static class declarations are not supported."
  | .tryNotBlock => "Try clause must contain a body statement."
  | .catchNotBlock => "Catch clause must contain a body statement."
  | .catchParameterNotName => "Catch clause parameter must be an identifier."
  | .forInit => "Unsupported for loop inititialization type"
  | .foreachLeft =>
    "Expected foreach to have a variable declaration, or list assignment expression."
  | .secondDefault => "Switch statement already has a default case."
  | .notAStatement =>
    "Only assignment, call, increment, decrement, await, and new object expressions can be used as a statement"
  | .subroutineWithoutName => "Expected subroutine to have an identifier."
  | .subroutineBodyNotBlock => "Expected subroutine body to be frame statement."
  | .methodDefined name => "Method name '" ++ name ++ "' already defined in this scope."
  | .subroutineDefined name =>
    "Static subroutine name '" ++ name ++ "' is already defined in this scope."
  | .parameterAssignment =>
    "Subroutine parameter default value assignment must be an identifier to a literal. (i.e 'value = 0')"
  | .parameterDefault =>
    "Subroutine default parameter value must be an identifier to a literal or other identifier."
  | .invalidParameter =>
    "Subroutine definition parameters must all be identifier or assignment to a literal."
  | .emptyImport => "Import declaration is empty."
  | .aliasedWildcard => "Wildcard import cannot be aliased."
  | .includeNotFound path => "Include file does not exist: '" ++ path ++ "'"
  | .includeUnreadable path => "Failed to parse include file '" ++ path ++ "': not a syntax tree"
  | .emptyPattern => "Array pattern has no elements."
  | .patternElement =>
    "Expected array pattern element to be an identifier or attribute member expression."
  | .declarationWithoutName => "Variable declaration for id is null."
  | .declarationNotName => "Variable declaration for id is not an identifier."
  | .variableNamedNil => "nil is not a valid variable name"
  | .staticDefined name => "Static member " ++ name ++ " was already declared in this module."
  | .staticNotAssignment => "Expected static keyword to be a variable assignment."
  | .staticNotName => "Expected static declaration to be an identifier."
  | .attributeDefined => "Attribute is already defined."
  | .attributeNotAssignment => "Expected attribute keyword to be a variable assignment."
  | .attributeNotName => "Expected attribute declaration to be an identifier."
  | .delegateDefined name => "Delegate '" ++ name ++ "' is already defined."
  | .finalizerHasName => "Finalizer function expression must not have a name."
  | .finalizerHasParameters => "Finalizer function expression must not have arguments."
  | .finalizerLambdaHasParameters => "Finalizer function lambda must not have arguments."
  | .finalizerNotFunction =>
    "Expected finalizer to be a function expression or function lambda."
  | .arrayHole => "Unsupported empty element in array declaration."
  | .invalidAttribute =>
    "Expected attribute member to be identifier or static member expression."
  | .attributePropertyNotName => "Expected attribute member property identifier."
  | .unaryOnSelector => "Unsupported unary operation on member expression"
  | .unaryOperand kind => "Unsupported unary operation on type: " ++ kind
  | .assignmentOperator text => "Unimplemented operator assignment " ++ text
  | .assignmentTarget kind => "Unsupported assignment target: " ++ kind
  | .variadicWithoutTarget =>
    "Missing FunctionObject target and argument array in variadic function call"
  | .variadicWithoutArguments => "Missing argument array in variadic function call"
  | .spreadArgument =>
    "Only a spread element as an argument is allowed in a Variable function call (VA_CALL). There must not be more than one argument."
  | .foreachUnsupported => "Foreach statements are not supported in Adhoc Versions below 11."
  | .mapUnsupported => "Map constants are not supported in Adhoc Versions lower than 11."
  | .selfUnsupported => "self is not supported in Adhoc Versions lower than 7."
  | .restUnsupported =>
    "List assignment rest element '...' is only supported in Adhoc version 12 and later."
  | .delegateUnsupported =>
    "Delegates are only available starting from Adhoc version 12, starting GT Sport."
  | .optionalElementUnsupported =>
    "Optional '?[' is only available starting from Adhoc version 12, starting GT Sport."
  | .optionalAttributeUnsupported =>
    "Optional '?.' is only available starting from Adhoc version 12, starting GT Sport."
  | .coalesceUnsupported =>
    "Nullish coalescing (??) is only available from Adhoc version 12, starting GT Sport"
  | .parameterDefaultUnsupported =>
    "Default parameter values are only supported in Adhoc version 7 and above."
  | .attributeDefaultUnsupported =>
    "Default attribute values are only available in Adhoc version 7 and above."
  | .literalUnsupported what since =>
    what ++ s!" literals are only available in Adhoc version {since} and above."

/-- A rejected program: what is wrong with it and where. -/
structure Rejection where
  cause : Cause
  source : String
  loc : Loc
deriving DecidableEq, Repr

def Rejection.message (r : Rejection) : String :=
  r.cause.message ++ " at " ++ r.source ++ ":" ++ toString r.loc.line.toNat

/-- A construct that compiles but that some runtimes do not know, in the order of reports. -/
inductive Warning
  | await
  | variadicCall
  | optional
  | coalesce
  | delegate
deriving DecidableEq, Repr

namespace Warning

def all : List Warning := [.await, .variadicCall, .optional, .coalesce, .delegate]

def code : Warning → String
  | .await => "USING_AWAIT"
  | .variadicCall => "USING_VACALL"
  | .optional => "USING_OPTIONAL"
  | .coalesce => "USING_NULL_COALESCING"
  | .delegate => "USING_DELEGATE"

def text : Warning → String
  | .await => "Async/Await is only available in GT6's Adhoc Version 12 and above"
  | .variadicCall =>
    "Variadic Calls (aka VA_CALL instruction) is only available in GT6's Adhoc Version 12 and above"
  | .optional =>
    "Chained optional expressions (?. , ?[) is only available in GT Sport's Adhoc Version 12 and above"
  | .coalesce =>
    "Null coalescing (??) is only available in GT Sport's Adhoc Version 12 and above."
  | .delegate => "Delegates are only available in GT Sport's Adhoc Version 12 and above."

def message (w : Warning) : String :=
  "Feature Warning: " ++ w.text ++ ". This may crash older game builds."

end Warning
end Adhoc
