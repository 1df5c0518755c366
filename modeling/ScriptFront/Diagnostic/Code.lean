/-! The codes of errors and warnings. The first digit of a code names the phase that found the
fault. -/
namespace ScriptFront

inductive Phase
  | lexical | preprocessing | typing | loading | featureLevel
  deriving DecidableEq, Repr

inductive ErrorCode
  | unterminatedString | invalidNumber | unknownOperator | integerOverflow | reservedWord
  | invalidLabel | nameCollision
  | elseWithoutIf | endifWithoutIf | unclosedIf | unknownDirective | malformedCondition
  | unclosedComment | nestingTooDeep | malformedDefine | duplicateElse
  | impossibleCast | invalidConstantCast
  | unreadableFile | malformedInclude | includeTooDeep | unwritableFile
  | unsupportedFeatureLevel
  deriving DecidableEq, Repr

namespace ErrorCode

/-- All error codes, in their order. -/
def all : List ErrorCode :=
  [unterminatedString, invalidNumber, unknownOperator, integerOverflow, reservedWord,
   invalidLabel, nameCollision,
   elseWithoutIf, endifWithoutIf, unclosedIf, unknownDirective, malformedCondition,
   unclosedComment, nestingTooDeep, malformedDefine, duplicateElse,
   impossibleCast, invalidConstantCast,
   unreadableFile, malformedInclude, includeTooDeep, unwritableFile,
   unsupportedFeatureLevel]

def text : ErrorCode → String
  | unterminatedString => "E0001"
  | invalidNumber => "E0002"
  | unknownOperator => "E0003"
  | integerOverflow => "E0004"
  | reservedWord => "E0005"
  | invalidLabel => "E0006"
  | nameCollision => "E0007"
  | elseWithoutIf => "E1001"
  | endifWithoutIf => "E1002"
  | unclosedIf => "E1003"
  | unknownDirective => "E1004"
  | malformedCondition => "E1005"
  | unclosedComment => "E1006"
  | nestingTooDeep => "E1007"
  | malformedDefine => "E1008"
  | duplicateElse => "E1009"
  | impossibleCast => "E2001"
  | invalidConstantCast => "E2002"
  | unreadableFile => "E3001"
  | malformedInclude => "E3002"
  | includeTooDeep => "E3003"
  | unwritableFile => "E3004"
  | unsupportedFeatureLevel => "E4001"

/-- The message of an error that has none of its own. -/
def description : ErrorCode → String
  | unterminatedString => "string literal exceeds line"
  | invalidNumber => "invalid number"
  | unknownOperator => "unknown operator"
  | integerOverflow => "integer literal out of range"
  | reservedWord => "reserved keyword"
  | invalidLabel => "invalid label"
  | nameCollision => "name hash collision"
  | elseWithoutIf => "#else without #if"
  | endifWithoutIf => "#endif without #if"
  | unclosedIf => "#if without #endif"
  | unknownDirective => "unknown preprocessor directive"
  | malformedCondition => "malformed condition"
  | unclosedComment => "unterminated block comment"
  | nestingTooDeep => "nesting too deep"
  | malformedDefine => "malformed #define"
  | duplicateElse => "duplicate #else"
  | impossibleCast => "cannot cast"
  | invalidConstantCast => "invalid cast of constants"
  | unreadableFile => "failed to load script file"
  | malformedInclude => "malformed include"
  | includeTooDeep => "includes nested too deeply"
  | unwritableFile => "failed to write combined source"
  | unsupportedFeatureLevel => "script feature level not supported"

def phase : ErrorCode → Phase
  | unterminatedString | invalidNumber | unknownOperator | integerOverflow | reservedWord
  | invalidLabel | nameCollision => .lexical
  | elseWithoutIf | endifWithoutIf | unclosedIf | unknownDirective | malformedCondition
  | unclosedComment | nestingTooDeep | malformedDefine | duplicateElse => .preprocessing
  | impossibleCast | invalidConstantCast => .typing
  | unreadableFile | malformedInclude | includeTooDeep | unwritableFile => .loading
  | unsupportedFeatureLevel => .featureLevel

/-- The code with a text. -/
def ofText? (s : String) : Option ErrorCode := all.find? (·.text == s)

end ErrorCode

/-- Warnings never make a script fail. -/
inductive WarningCode
  | deprecatedCall | deprecatedAlias | redefinition
  deriving DecidableEq, Repr

namespace WarningCode

def all : List WarningCode := [deprecatedCall, deprecatedAlias, redefinition]

def text : WarningCode → String
  | deprecatedCall => "W0001"
  | deprecatedAlias => "W0002"
  | redefinition => "W0003"

end WarningCode
end ScriptFront
