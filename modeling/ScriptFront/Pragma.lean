import ScriptFront.Number.Integer

/-! Pragmas that hold for a whole script, wherever in it they stand. -/
namespace ScriptFront

inductive GlobalPragma
  /-- The feature level that the script needs. Level 0 asks for nothing. -/
  | featureLevel (level : UInt64)
  deriving DecidableEq, Repr

namespace GlobalPragma

/-- The level in the parentheses. What is no number asks for nothing. -/
def level (s : List Char) : UInt64 := (Integer.parse (Text.trim s)).toOption.getD 0

/-- Reads the text of a pragma. -/
def ofText? (text : List Char) : Option GlobalPragma := do
  let rest ← Text.after? "script-feature-level(".toList (Text.trim text)
  match rest.reverse with
  | ')' :: s => some (.featureLevel (level s.reverse))
  | _ => none

end GlobalPragma
end ScriptFront
