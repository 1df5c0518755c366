import ScriptFront.Depth
import ScriptFront.Diagnostic.Code
import ScriptFront.Token

/-! Conditions: expressions over integers of 64 bits that decide what a script contains. A value that
is not 0 means yes. -/
namespace ScriptFront

inductive ConditionError
  | empty
  | unexpectedEnd
  | unexpectedToken (text : String)
  | notAllowed (kind : TokenKind)
  | unclosedParenthesis
  | divisionByZero
  | tooDeep (e : DepthExceeded)
  deriving DecidableEq, Repr

namespace ConditionError

def message : ConditionError → String
  | empty => "empty expression"
  | unexpectedEnd => "expression ended unexpectedly"
  | unexpectedToken text => s!"unexpected `{text}` in expression"
  | notAllowed kind => s!"{kind.name} tokens are not allowed in preprocessor expressions"
  | unclosedParenthesis => "missing `)`"
  | divisionByZero => "division by zero"
  | tooDeep e => e.message

def code : ConditionError → ErrorCode
  | tooDeep _ => .nestingTooDeep
  | _ => .malformedCondition

end ConditionError

namespace Condition

/-- How many parentheses and unary operators may be open at an operand, the operand included. -/
def maxDepth : Nat := 128

/-- The priority of the operator that binds least tightly in a condition. -/
def lowestPriority : Nat := Operator.priority .logicalOr

def ofBool (b : Bool) : Int64 := if b then 1 else 0

/-- What a binary operator of conditions computes. A quotient by zero has no value. Both operands of
a logical operator count, so neither hides a quotient by zero in the other. -/
def binary? : Operator → Option (Int64 → Int64 → Option Int64)
  | .mul => some fun a b => some (a * b)
  | .div => some fun a b => if b = 0 then none else some (a / b)
  | .mod => some fun a b => if b = 0 then none else some (a % b)
  | .add => some fun a b => some (a + b)
  | .sub => some fun a b => some (a - b)
  | .shl => some fun a b => some (a <<< (b &&& 63))
  | .shr => some fun a b => some (a >>> (b &&& 63))
  | .lt => some fun a b => some (ofBool (a < b))
  | .le => some fun a b => some (ofBool (a ≤ b))
  | .gt => some fun a b => some (ofBool (b < a))
  | .ge => some fun a b => some (ofBool (b ≤ a))
  | .eq => some fun a b => some (ofBool (a == b))
  | .ne => some fun a b => some (ofBool (a != b))
  | .bitAnd => some fun a b => some (a &&& b)
  | .bitXor => some fun a b => some (a ^^^ b)
  | .bitOr => some fun a b => some (a ||| b)
  | .logicalAnd => some fun a b => some (ofBool (a != 0 && b != 0))
  | .logicalOr => some fun a b => some (ofBool (a != 0 || b != 0))
  | _ => none

def unary? : Operator → Option (Int64 → Int64)
  | .not => some fun a => ofBool (a == 0)
  | .bitNot => some fun a => ~~~a
  | .sub => some fun a => -a
  | .add => some fun a => a
  | _ => none

/-- What is left of `ts` after at least one token. -/
abbrev Rest (ts : List Token) := { rest : List Token // rest.length < ts.length }

/-- What is left of `ts`. -/
abbrev Tail (ts : List Token) := { rest : List Token // rest.length ≤ ts.length }

mutual

/-- An operand: a name, an integer, an expression in parentheses, or a unary operator and an operand.
`room` says how many more of these may be open. -/
def operand (value : String → Int64) (room : Nat) (ts : List Token) :
    Except ConditionError (Int64 × Rest ts) :=
  match room with
  | 0 => .error (.tooDeep ⟨maxDepth⟩)
  | room + 1 =>
    match ts with
    | [] => .error .unexpectedEnd
    | .identifier name :: ts => .ok (value name, ⟨ts, by simp⟩)
    | .constant (.integer n) :: ts => .ok (n.toInt64, ⟨ts, by simp⟩)
    | .operator .parenLeft :: ts => do
      let (v, ⟨rest, h⟩) ← expression value room lowestPriority ts
      match rest, h with
      | .operator .parenRight :: rest, h =>
        .ok (v, ⟨rest, by simp only [List.length_cons] at h ⊢; omega⟩)
      | t :: _, _ => .error (.unexpectedToken t.display)
      | [], _ => .error .unclosedParenthesis
    | .operator op :: ts =>
      match unary? op with
      | none => .error (.unexpectedToken op.spelling)
      | some f => do
        let (v, ⟨rest, h⟩) ← operand value room ts
        .ok (f v, ⟨rest, by simp only [List.length_cons]; omega⟩)
    | t :: _ => .error (.notAllowed t.kind)
termination_by (ts.length, 0)

/-- Operands that are joined by operators of a priority up to `max`. -/
def expression (value : String → Int64) (room max : Nat) (ts : List Token) :
    Except ConditionError (Int64 × Rest ts) := do
  let (v, ⟨rest, h⟩) ← operand value room ts
  let (v, ⟨rest, h'⟩) ← joined value room max v rest
  .ok (v, ⟨rest, by omega⟩)
termination_by (ts.length, 1)

/-- Goes on after the operand with the value `left`. Operators of one priority group from left to
right. -/
def joined (value : String → Int64) (room max : Nat) (left : Int64) (ts : List Token) :
    Except ConditionError (Int64 × Tail ts) :=
  match ts with
  | .operator op :: ts =>
    match binary? op with
    | none => .ok (left, ⟨.operator op :: ts, Nat.le_refl _⟩)
    | some f =>
      if max < op.priority then .ok (left, ⟨.operator op :: ts, Nat.le_refl _⟩)
      else do
        let (right, ⟨rest, h⟩) ← expression value room (op.priority - 1) ts
        match f left right with
        | none => .error .divisionByZero
        | some v =>
          let (v, ⟨rest, h'⟩) ← joined value room max v rest
          .ok (v, ⟨rest, by simp only [List.length_cons]; omega⟩)
  | ts => .ok (left, ⟨ts, Nat.le_refl _⟩)
termination_by (ts.length, 0)

end

/-- The value of a condition, where `value` gives the values of names. -/
def evaluate (value : String → Int64) (ts : List Token) : Except ConditionError Int64 :=
  if ts.isEmpty then .error .empty
  else do
    let (v, ⟨rest, _⟩) ← expression value maxDepth lowestPriority ts
    match rest with
    | [] => .ok v
    | t :: _ => .error (.unexpectedToken t.display)

end Condition
end ScriptFront
