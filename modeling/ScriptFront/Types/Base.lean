/-! How values are held in the machine. -/
namespace ScriptFront

inductive IntWidth
  | w8 | w16 | w32 | w64
  deriving DecidableEq, Repr

namespace IntWidth

def all : List IntWidth := [w8, w16, w32, w64]

def rank : IntWidth → Nat
  | w8 => 0
  | w16 => 1
  | w32 => 2
  | w64 => 3

def bits : IntWidth → Nat
  | w8 => 8
  | w16 => 16
  | w32 => 32
  | w64 => 64

def bytes : IntWidth → Nat
  | w8 => 1
  | w16 => 2
  | w32 => 4
  | w64 => 8

/-- The width with a rank. Ranks are taken modulo 4. -/
def ofRank (n : Nat) : IntWidth :=
  match n % 4 with
  | 0 => w8
  | 1 => w16
  | 2 => w32
  | _ => w64

end IntWidth

inductive BaseType
  | void
  | integer (signed : Bool) (width : IntWidth)
  /-- An integer whose width is not decided yet. -/
  | intConst
  | float
  | double
  deriving DecidableEq, Repr

namespace BaseType

/-- All base types, in the order of their codes. -/
def all : List BaseType :=
  [void] ++ IntWidth.all.map (integer false) ++ IntWidth.all.map (integer true) ++
    [intConst, float, double]

def code : BaseType → Nat
  | void => 0x00
  | integer signed width => 0x10 + (if signed then 8 else 0) + width.rank
  | intConst => 0x1f
  | float => 0x20
  | double => 0x21

def isInteger : BaseType → Bool
  | integer _ _ | intConst => true
  | _ => false

def isFloating : BaseType → Bool
  | float | double => true
  | _ => false

def isSigned : BaseType → Bool
  | integer signed _ => signed
  | intConst => true
  | _ => false

/-- The rank of the width. What is no number has rank 0. -/
def widthRank : BaseType → Nat
  | void => 0
  | integer _ width => width.rank
  | intConst => 3
  | float => 2
  | double => 3

def bytes : BaseType → Nat
  | void => 0
  | integer _ width => width.bytes
  | intConst => 8
  | float => 4
  | double => 8

end BaseType
end ScriptFront
