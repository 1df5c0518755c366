import ScriptFront.Operator
import ScriptFront.Types.Cast

/-! Choosing among the signatures of an operator and among functions of one name. -/
namespace ScriptFront

structure OperatorSignature where
  left : TypeId
  right : TypeId
  result : TypeId
  deriving DecidableEq, Repr

namespace OperatorSignature

/-- The types that operators work on, the widest integers first. -/
def operandTypes : List TypeId :=
  [.s64, .u64, .s32, .u32, .s16, .u16, .s8, .u8, .float, .double, .string]

def symmetric : List OperatorSignature := operandTypes.map fun t => ⟨t, t, t⟩

def comparison : List OperatorSignature := operandTypes.map fun t => ⟨t, t, .bool⟩

def trinary : List OperatorSignature := operandTypes.map fun t => ⟨.bool, t, t⟩

end OperatorSignature

/-- The signatures of the operators of a category, and whether the type of the left operand has to
be met exactly. -/
def OperatorCategory.signatures? : OperatorCategory → Option (List OperatorSignature × Bool)
  | assignment => some (OperatorSignature.symmetric, true)
  | symmetric => some (OperatorSignature.symmetric, false)
  | comparison => some (OperatorSignature.comparison, false)
  | trinary => some (OperatorSignature.trinary, false)
  | other => none

/-- The first of the best candidates: `better a b` says that `a` is better than `b`. -/
def firstBest? (better : α → α → Bool) : List α → Option α
  | [] => none
  | a :: as => some (as.foldl (fun best a => if better a best then a else best) a)

namespace CastRules

variable {hash : NameHash} (r : CastRules hash)

/-- The worse priority of the two operands counts before the better one. -/
def signaturePriority (s : OperatorSignature) (left right : TypeId) : Nat :=
  let a := r.implicitPriority left s.left
  let b := r.implicitPriority right s.right
  max a b * 256 + min a b

/-- Priorities from here on belong to signatures that do not fit. -/
def noSignature : Nat := 0xff00

def bestSignature? (op : Operator) (left right : TypeId) : Option OperatorSignature := do
  let (signatures, exactLeft) ← op.category.signatures?
  let candidates := signatures.filter fun s =>
    (!exactLeft || s.left == left) && r.signaturePriority s left right < noSignature
  firstBest? (fun s t => r.signaturePriority s left right < r.signaturePriority t left right)
    candidates

def canMatch (arguments parameters : List TypeId) : Bool :=
  arguments.length == parameters.length &&
    (arguments.zip parameters).all fun (a, p) => r.canImplicitly a p

def noMatch : Nat := 0xffffffff

/-- A number from at most `n` bytes, the highest one first. -/
def packBytes : Nat → List Nat → Nat
  | 0, _ => 0
  | _, [] => 0
  | n + 1, b :: bs => b * Nat.pow 256 n + packBytes n bs

/-- The priority of a function: those of its parameters with the worst first, of which the first four
count. -/
def functionPriority (arguments parameters : List TypeId) : Nat :=
  if arguments.length = parameters.length then
    let priorities := (arguments.zip parameters).map fun (a, p) => r.implicitPriority a p
    packBytes 4 (priorities.mergeSort fun a b => b ≤ a)
  else noMatch

/-- The place of the function that fits the arguments best. Of equally good ones the first is
taken. -/
def bestFunction? (arguments : List TypeId) (candidates : List (List TypeId)) : Option Nat :=
  let fitting := candidates.zipIdx.filter fun (parameters, _) => r.canMatch arguments parameters
  let better (a b : List TypeId × Nat) : Bool :=
    r.functionPriority arguments a.1 < r.functionPriority arguments b.1
  (firstBest? better fitting).map (·.2)

end CastRules
end ScriptFront
