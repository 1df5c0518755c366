import ScriptFront.Text.ExtendingMark
import ScriptFront.Text.Unprintable

/-! A text as a literal that shows every character of it. -/
namespace ScriptFront.Text.Literal

/-- Quotes, backslashes and the usual control characters have escapes of their own. A character
that cannot be seen by itself is written by its code. -/
def escape (c : Char) : List Char :=
  match c with
  | '\x00' => ['\\', '0']
  | '\t' => ['\\', 't']
  | '\r' => ['\\', 'r']
  | '\n' => ['\\', 'n']
  | '"' => ['\\', '"']
  | '\\' => ['\\', '\\']
  | c =>
    if isExtendingMark c || isUnprintable c then
      ['\\', 'u', '\x7b'] ++ Nat.toDigits 16 c.toNat ++ ['\x7d']
    else [c]

/-- The literal of a text, in double quotes. -/
def quote (s : List Char) : List Char := '"' :: s.flatMap escape ++ ['"']

end ScriptFront.Text.Literal

namespace ScriptFront

def quoted (s : String) : String := String.ofList (Text.Literal.quote s.toList)

end ScriptFront
