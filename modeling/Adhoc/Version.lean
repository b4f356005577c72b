namespace Adhoc

/-- A bytecode version. -/
structure Version where
  number : Nat
  supported : 1 ≤ number ∧ number ≤ 13 := by decide
deriving DecidableEq

/-- What differs between versions: frame and container layout first, then the language, then the
choice of instructions. -/
inductive Capability
  | symbolTable
  | frameDebugHeader
  | restFlag
  | parameterList
  | parameterIndices
  | capturedList
  | splitStorage
  | reservedLocalInFrame
  | importAlias
  | singleSymbolAttributePush
  | attributeDefinePops
  | subroutineConsumesStack
  | sourceFileSupport
  | systemObjectRoot
  | alternateJumpAlways
  | foreach
  | selfVariable
  | maps
  | parameterDefaults
  | attributeDefaults
  | delegates
  | optionalChaining
  | nullCoalescing
  | restElements
  | attributeEval
  | internalOperatorNames
  | internalBinaryOperatorNames
  | ternaryPop
  | indirectionEval
  | voidForEmptyReturn
  | popOnValueReturn
  | setStateInFunctions
  | evalOnCall
  | voidInsteadOfNop
  | stringPushForEmptyString
  | valueBeforePush
  | freesOnLeave
  | smallIntConstants
  | extendedConstants
  | assignPop
  | newAssign
  | newPop
  | newSetState
  | newListAssign
  | newArrayConst
  | binaryAssign
  | newLogicalInstructions
  | elementEval
  | leave
deriving DecidableEq, Repr

/-- The first and the last version that has the capability. -/
def Capability.span : Capability → Nat × Nat
  | .symbolTable => (9, 13)
  | .frameDebugHeader => (8, 12)
  | .restFlag => (12, 13)
  | .parameterList => (4, 13)
  | .parameterIndices => (8, 13)
  | .capturedList => (8, 13)
  | .splitStorage => (11, 13)
  | .reservedLocalInFrame => (1, 10)
  | .importAlias => (10, 13)
  | .singleSymbolAttributePush => (1, 5)
  | .attributeDefinePops => (7, 13)
  | .subroutineConsumesStack => (8, 13)
  | .sourceFileSupport => (7, 13)
  | .systemObjectRoot => (10, 13)
  | .alternateJumpAlways => (7, 10)
  | .foreach => (11, 13)
  | .selfVariable => (7, 13)
  | .maps => (11, 13)
  | .parameterDefaults => (7, 13)
  | .attributeDefaults => (7, 13)
  | .delegates => (12, 13)
  | .optionalChaining => (12, 13)
  | .nullCoalescing => (12, 13)
  | .restElements => (12, 13)
  | .attributeEval => (7, 13)
  | .internalOperatorNames => (12, 13)
  | .internalBinaryOperatorNames => (11, 13)
  | .ternaryPop => (11, 13)
  | .indirectionEval => (11, 13)
  | .voidForEmptyReturn => (11, 13)
  | .popOnValueReturn => (1, 10)
  | .setStateInFunctions => (1, 9)
  | .evalOnCall => (1, 10)
  | .voidInsteadOfNop => (11, 13)
  | .stringPushForEmptyString => (11, 13)
  | .valueBeforePush => (11, 13)
  | .freesOnLeave => (11, 13)
  | .smallIntConstants => (13, 13)
  | .extendedConstants => (12, 13)
  | .assignPop => (11, 13)
  | .newAssign => (10, 13)
  | .newPop => (10, 13)
  | .newSetState => (10, 13)
  | .newListAssign => (11, 13)
  | .newArrayConst => (11, 13)
  | .binaryAssign => (5, 13)
  | .newLogicalInstructions => (11, 13)
  | .elementEval => (12, 13)
  | .leave => (11, 13)

namespace Version

def latestCommon : Version where
  number := 12

instance : Inhabited Version := ⟨latestCommon⟩

def ofNat? (n : Nat) : Option Version :=
  if h : 1 ≤ n ∧ n ≤ 13 then some ⟨n, h⟩ else none

def unsupportedMessage (n : Nat) : String :=
  s!"unsupported adhoc version {n} (expected 1 through 13)"

def has (v : Version) (c : Capability) : Bool :=
  c.span.1 ≤ v.number && v.number ≤ c.span.2

/-- Very old frames always name their source; later ones do so in debug builds, except at 8. -/
def writesFrameSource (v : Version) (debug : Bool) : Bool :=
  v.number < 8 || (debug && v.number != 8)

theorem ofNat?_number (v : Version) : ofNat? v.number = some v := by
  simp [ofNat?, v.supported]

theorem ofNat?_eq_none_iff (n : Nat) : ofNat? n = none ↔ n < 1 ∨ 13 < n := by
  unfold ofNat?
  split <;> simp <;> omega

end Version
end Adhoc
