/-! The operators of the language: their spellings and how tightly they bind. -/
namespace ScriptFront

inductive Operator
  | assign | assignAdd | assignSub | assignMul | assignDiv | assignMod
  | assignShl | assignShr | assignAnd | assignOr | assignXor
  | add | sub | mul | div | mod | shl | shr | bitAnd | bitOr | bitXor
  | logicalAnd | logicalOr
  | not | bitNot | decrement | increment
  | eq | ne | lt | le | gt | ge
  | question | colon | semicolon | comma
  | parenLeft | parenRight | bracketLeft | bracketRight
  deriving DecidableEq, Repr

/-- The kind of operands that an operator takes. -/
inductive OperatorCategory
  /-- The left operand is a place that keeps its type. -/
  | assignment
  /-- Operands and result are of one type. -/
  | symmetric
  | comparison
  | trinary
  /-- Unary operators, separators and brackets. -/
  | other
  deriving DecidableEq, Repr

namespace Operator

/-- All operators, in the order of their numbers. -/
def all : List Operator :=
  [assign, assignAdd, assignSub, assignMul, assignDiv, assignMod,
   assignShl, assignShr, assignAnd, assignOr, assignXor,
   add, sub, mul, div, mod, shl, shr, bitAnd, bitOr, bitXor,
   logicalAnd, logicalOr,
   not, bitNot, decrement, increment,
   eq, ne, lt, le, gt, ge,
   question, colon, semicolon, comma,
   parenLeft, parenRight, bracketLeft, bracketRight]

theorem mem_all (op : Operator) : op ∈ all := by cases op <;> decide

def spelling : Operator → String
  | assign => "="
  | assignAdd => "+="
  | assignSub => "-="
  | assignMul => "*="
  | assignDiv => "/="
  | assignMod => "%="
  | assignShl => "<<="
  | assignShr => ">>="
  | assignAnd => "&="
  | assignOr => "|="
  | assignXor => "^="
  | add => "+"
  | sub => "-"
  | mul => "*"
  | div => "/"
  | mod => "%"
  | shl => "<<"
  | shr => ">>"
  | bitAnd => "&"
  | bitOr => "|"
  | bitXor => "^"
  | logicalAnd => "&&"
  | logicalOr => "||"
  | not => "!"
  | bitNot => "~"
  | decrement => "--"
  | increment => "++"
  | eq => "=="
  | ne => "!="
  | lt => "<"
  | le => "<="
  | gt => ">"
  | ge => ">="
  | question => "?"
  | colon => ":"
  | semicolon => ";"
  | comma => ","
  | parenLeft => "("
  | parenRight => ")"
  | bracketLeft => "["
  | bracketRight => "]"

/-- The lower the priority, the tighter an operator binds. -/
def priority : Operator → Nat
  | parenLeft | parenRight | bracketLeft | bracketRight => 2
  | not | bitNot | decrement | increment => 3
  | mul | div | mod => 5
  | add | sub => 6
  | shl | shr => 7
  | lt | le | gt | ge => 8
  | eq | ne => 9
  | bitAnd => 10
  | bitXor => 11
  | bitOr => 12
  | logicalAnd => 13
  | logicalOr => 14
  | comma => 17
  | semicolon => 18
  | _ => 15

/-- Unary operators, assignments and the choice by a condition group from right to left. -/
def isRightAssociative (op : Operator) : Bool := op.priority == 3 || op.priority == 15

def category : Operator → OperatorCategory
  | assign | assignAdd | assignSub | assignMul | assignDiv | assignMod
  | assignShl | assignShr | assignAnd | assignOr | assignXor => .assignment
  | add | sub | mul | div | mod | shl | shr | bitAnd | bitOr | bitXor
  | logicalAnd | logicalOr | colon => .symmetric
  | eq | ne | lt | le | gt | ge => .comparison
  | question => .trinary
  | _ => .other

end Operator
end ScriptFront
