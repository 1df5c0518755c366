import ScriptFront.Diagnostic.Code

/-! Errors and warnings with the places that they were found at. -/
namespace ScriptFront

/-- A loaded file: its full path, and the name that it has in messages. -/
structure SourceFile where
  path : String
  name : String
  deriving DecidableEq, Repr

/-- An error. The lines of a file are counted from 1; an error without a place has line 0. -/
structure ErrorRecord where
  code : ErrorCode
  message : String
  file : Option SourceFile
  line : Nat
  data : UInt64 × UInt64
  deriving DecidableEq, Repr

namespace ErrorRecord

def new (code : ErrorCode) (message : String) : ErrorRecord := ⟨code, message, none, 0, (0, 0)⟩

def ofCode (code : ErrorCode) : ErrorRecord := new code code.description

def withData (e : ErrorRecord) (a b : UInt64) : ErrorRecord := { e with data := (a, b) }

def located (e : ErrorRecord) (file : SourceFile) (line : Nat) : ErrorRecord :=
  { e with file := some file, line }

def display (e : ErrorRecord) : String :=
  let place := e.file.elim "" fun file => s!"{file.name}:{e.line}: "
  s!"{place}error[{e.code.text}]: {e.message}"

end ErrorRecord

/-- A place where a warning was found. -/
structure WarningSite where
  file : Option SourceFile
  line : Nat
  deriving DecidableEq, Repr

/-- A warning with all the places where it was found. -/
structure WarningRecord where
  code : WarningCode
  message : String
  sites : List WarningSite
  deriving DecidableEq, Repr

namespace WarningSite

def display (w : WarningSite) : String :=
  match w.file with
  | some file => s!"\n  at {file.name}:{w.line}"
  | none => s!"\n  at line {w.line}"

end WarningSite

namespace WarningRecord

def addSite (w : WarningRecord) (site : WarningSite) : WarningRecord :=
  { w with sites := w.sites ++ [site] }

def display (w : WarningRecord) : String :=
  s!"warning[{w.code.text}]: {w.message}" ++ String.join (w.sites.map WarningSite.display)

end WarningRecord

end ScriptFront
