import ScriptFront.Text

/-! Unsigned integers of 64 bits, in decimal digits or in hexadecimal digits after `0x`. -/
namespace ScriptFront

inductive NumberError
  /-- A character that the form of the number does not admit. -/
  | invalidDigit
  | overflow
  deriving DecidableEq, Repr

def NumberError.message : NumberError → String
  | invalidDigit => "invalid number"
  | overflow => "integer literal exceeds 64 bits"

namespace Integer

def decimalDigit? (c : Char) : Option Nat :=
  if '0' ≤ c ∧ c ≤ '9' then some (c.toNat - '0'.toNat) else none

def hexDigit? (c : Char) : Option Nat :=
  if '0' ≤ c ∧ c ≤ '9' then some (c.toNat - '0'.toNat)
  else if 'A' ≤ c ∧ c ≤ 'F' then some (c.toNat - 'A'.toNat + 10)
  else if 'a' ≤ c ∧ c ≤ 'f' then some (c.toNat - 'a'.toNat + 10)
  else none

/-- One more digit at the end of a value, if the result has 64 bits. -/
def push? (base : Nat) (value : UInt64) (digit : Nat) : Option UInt64 :=
  let n := value.toNat * base + digit
  if n < UInt64.size then some (UInt64.ofNat n) else none

/-- Reads digits after those of `value`, which is absent if these were too many. A bad digit counts
before an overflow, wherever it stands. -/
def readFrom (base : Nat) (digit? : Char → Option Nat) :
    Option UInt64 → List Char → Except NumberError UInt64
  | value, [] => value.elim (.error .overflow) .ok
  | value, c :: s =>
    match digit? c with
    | none => .error .invalidDigit
    | some d => readFrom base digit? (value.bind (push? base · d)) s

def read (base : Nat) (digit? : Char → Option Nat) (s : List Char) : Except NumberError UInt64 :=
  if s.isEmpty then .error .invalidDigit else readFrom base digit? (some 0) s

/-- The value of an integer literal. At least one digit follows `0x`. -/
def parse : List Char → Except NumberError UInt64
  | '0' :: 'x' :: c :: s => read 16 hexDigit? (c :: s)
  | s => read 10 decimalDigit? s

end Integer
end ScriptFront
