import ScriptFront.Condition
import Mathlib.Algebra.Group.Int.Defs
import Mathlib.Algebra.Group.Nat.Defs

/-! The grammar of conditions as trees, and the integers that they mean. -/
namespace ScriptFront.Condition

def prefixOperators : List Operator := [.not, .bitNot, .sub, .add]

def binaryOperators : List Operator :=
  [.mul, .div, .mod, .add, .sub, .shl, .shr, .lt, .le, .gt, .ge, .eq, .ne,
   .bitAnd, .bitXor, .bitOr, .logicalAnd, .logicalOr]

def truth (p : Prop) [Decidable p] : Int := if p then 1 else 0

/-- What a prefix operator means for integers, before the result is wrapped. -/
def prefixMeaning (op : Operator) (a : Int) : Int :=
  match op with
  | .not => truth (a = 0)
  | .bitNot => -a - 1
  | .sub => -a
  | _ => a

/-- What a binary operator means for integers, before the result is wrapped. Quotients are
truncated, and shift counts taken modulo 64. -/
def meaning? (op : Operator) (a b : Int) : Option Int :=
  match op with
  | .mul => some (a * b)
  | .div => if b = 0 then none else some (a.tdiv b)
  | .mod => if b = 0 then none else some (a.tmod b)
  | .add => some (a + b)
  | .sub => some (a - b)
  | .shl => some (a * 2 ^ (b % 64).toNat)
  | .shr => some (a / 2 ^ (b % 64).toNat)
  | .lt => some (truth (a < b))
  | .le => some (truth (a ≤ b))
  | .gt => some (truth (b < a))
  | .ge => some (truth (b ≤ a))
  | .eq => some (truth (a = b))
  | .ne => some (truth (a ≠ b))
  | .bitAnd => some (BitVec.ofInt 64 a &&& BitVec.ofInt 64 b).toInt
  | .bitXor => some (BitVec.ofInt 64 a ^^^ BitVec.ofInt 64 b).toInt
  | .bitOr => some (BitVec.ofInt 64 a ||| BitVec.ofInt 64 b).toInt
  | .logicalAnd => some (truth (a ≠ 0 ∧ b ≠ 0))
  | .logicalOr => some (truth (a ≠ 0 ∨ b ≠ 0))
  | _ => none

inductive Tree
  | name (text : String)
  | integer (n : UInt64)
  | parens (e : Tree)
  | unary (op : Operator) (e : Tree)
  | binary (op : Operator) (l r : Tree)
  deriving DecidableEq, Repr

namespace Tree

/-- The tokens of a tree from left to right. -/
def tokens : Tree → List Token
  | name text => [.identifier text]
  | integer n => [.constant (.integer n)]
  | parens e => .operator .parenLeft :: (e.tokens ++ [.operator .parenRight])
  | unary op e => .operator op :: e.tokens
  | binary op l r => l.tokens ++ .operator op :: r.tokens

/-- How loosely a tree is held together. An operand is held together most tightly. -/
def level : Tree → Nat
  | binary op _ _ => op.priority
  | _ => 0

/-- The tree groups its tokens as the grammar does: what binds more tightly lies deeper, and
operators of one priority group from left to right. -/
def Grouped : Tree → Prop
  | name _ | integer _ => True
  | parens e => e.Grouped
  | unary op e => op ∈ prefixOperators ∧ e.level = 0 ∧ e.Grouped
  | binary op l r => op ∈ binaryOperators ∧ l.level ≤ op.priority ∧ r.level < op.priority ∧
      l.Grouped ∧ r.Grouped

/-- How many parentheses and prefix operators are around an operand at most. -/
def depth : Tree → Nat
  | name _ | integer _ => 0
  | parens e | unary _ e => e.depth + 1
  | binary _ l r => max l.depth r.depth

/-- The value of a tree, wrapped to 64 bits at each step, if no divisor in it is 0. -/
def value? (names : String → Int64) : Tree → Option Int64
  | name text => some (names text)
  | integer n => some (Int64.ofInt n.toNat)
  | parens e => e.value? names
  | unary op e => (e.value? names).map fun a => Int64.ofInt (prefixMeaning op a.toInt)
  | binary op l r => do
    let a ← l.value? names
    let b ← r.value? names
    (meaning? op a.toInt b.toInt).map Int64.ofInt

end Tree

end ScriptFront.Condition
