/-! Counting how deep something is nested, up to a limit. -/
namespace ScriptFront

structure DepthExceeded where
  limit : Nat
  deriving DecidableEq, Repr

def DepthExceeded.message (e : DepthExceeded) : String := s!"nesting exceeds the limit of {e.limit}"

structure DepthLimit where
  depth : Nat
  limit : Nat
  deriving DecidableEq, Repr

namespace DepthLimit

def new (limit : Nat) : DepthLimit := ⟨0, limit⟩

/-- One level down, unless that is too deep. -/
def descend (d : DepthLimit) : Except DepthExceeded DepthLimit :=
  if d.depth < d.limit then .ok { d with depth := d.depth + 1 } else .error ⟨d.limit⟩

/-- One level up. -/
def ascend (d : DepthLimit) : DepthLimit := { d with depth := d.depth - 1 }

def reset (d : DepthLimit) : DepthLimit := { d with depth := 0 }

end DepthLimit
end ScriptFront
