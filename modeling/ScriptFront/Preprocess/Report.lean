import ScriptFront.Diagnostic.Code
import ScriptFront.Token.Lexer

/-! What was found at the lines of one text. Lines are counted from 0. -/
namespace ScriptFront

structure LineError where
  line : Nat
  code : ErrorCode
  message : String
  deriving DecidableEq, Repr

structure LineWarning where
  line : Nat
  code : WarningCode
  message : String
  deriving DecidableEq, Repr

/-- A fault of the tokens in a line. -/
def LexError.atLine (e : LexError) (line : Nat) : LineError := ⟨line, e.cause.code, e.cause.message⟩

structure LineReport where
  errors : List LineError
  warnings : List LineWarning
  deriving DecidableEq, Repr

namespace LineReport

def empty : LineReport := ⟨[], []⟩

def hasErrors (r : LineReport) : Bool := !r.errors.isEmpty

def addErrors (r : LineReport) (es : List LineError) : LineReport := { r with errors := r.errors ++ es }

def addWarning (r : LineReport) (w : LineWarning) : LineReport :=
  { r with warnings := r.warnings ++ [w] }

end LineReport
end ScriptFront
