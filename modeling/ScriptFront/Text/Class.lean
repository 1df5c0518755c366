import ScriptFront.Text

/-! Classes of characters. Only ASCII characters belong to one, so a text may be given by its
characters or, one character for each byte, by its encoding. -/
namespace ScriptFront

inductive CharClass
  | letter | digit | dot | identifier | operator | blank
  deriving DecidableEq, Repr

namespace CharClass

def all : List CharClass := [letter, digit, dot, identifier, operator, blank]

def isLetter (c : Char) : Bool := c.isAlpha

def isDigit (c : Char) : Bool := c.isDigit

/-- Dotted names such as `Game.onFrame` are one identifier. -/
def isIdentifier (c : Char) : Bool := c.isAlphanum || c == '_' || c == '.'

theorem isIdentifier_of_isDigit {c : Char} (h : isDigit c = true) : isIdentifier c = true := by
  have hd : c.isDigit = true := h
  simp [isIdentifier, Char.isAlphanum, hd]

/-- The characters that occur in the spelling of an operator. -/
def isOperator (c : Char) : Bool := "=+-*/%<>&|^!~?:;,()[]".toList.contains c

theorem toNat_lt_of_isOperator (c : Char) (h : isOperator c = true) : c.toNat < 128 := by
  have hall : "=+-*/%<>&|^!~?:;,()[]".toList.all fun d => d.toNat < 128 := by decide
  exact of_decide_eq_true (List.all_eq_true.mp hall c (List.contains_iff_mem.mp h))

def isBlank (c : Char) : Bool := c == ' ' || c == '\t' || c == '\r'

def has : CharClass → Char → Bool
  | letter, c => isLetter c
  | digit, c => isDigit c
  | dot, c => c == '.'
  | identifier, c => isIdentifier c
  | operator, c => isOperator c
  | blank, c => isBlank c

/-- The weight of a class in a set of classes. -/
def bit : CharClass → Nat
  | letter => 1
  | digit => 2
  | dot => 4
  | identifier => 8
  | operator => 16
  | blank => 32

/-- The classes of a character as one number. -/
def bits (c : Char) : Nat := ((all.filter (·.has c)).map bit).foldl (· + ·) 0

def isDigitOrLetter (c : Char) : Bool := isDigit c || isLetter c

def isDigitOrDot (c : Char) : Bool := isDigit c || c == '.'

end CharClass
end ScriptFront
