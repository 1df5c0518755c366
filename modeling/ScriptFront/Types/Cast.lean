import ScriptFront.Diagnostic.Record
import ScriptFront.Types.Catalogue
import ScriptFront.Types.Conversion

/-! Casts between types. The lower the priority of a cast, the better it fits: 0 for one type, then
conversions of integers, between integers and floating numbers, and last the cast to `any`. -/
namespace ScriptFront

inductive CastKind
  /-- The value is used as it is. -/
  | noCast
  | base (c : Conversion)
  /-- The value is put into an `any`. -/
  | any
  | invalid
  deriving DecidableEq, Repr

structure Cast where
  kind : CastKind
  priority : Nat
  deriving DecidableEq, Repr

namespace Cast

def impossible : Nat := 0xff

def invalid : Cast := ⟨.invalid, impossible⟩

def anyPriority : Nat := 0xf0

def floatToDoublePriority : Nat := 0x48

def intToFloatPriority : Nat := 0x50

def floatToIntPriority : Nat := 0x54

def isValid (c : Cast) : Bool := c.kind != .invalid

def ofBases (source target : BaseType) : CastKind :=
  match Conversion.between? source target with
  | none => .invalid
  | some .keep => .noCast
  | some c => .base c

/-- A wider target is better than a narrower one, and a target that keeps the sign is better than one
that loses it. A literal fits any integer type. -/
def integerPriority (signed : Bool) (width : IntWidth) (role : IntegerRole)
    (signed' : Bool) (width' : IntWidth) (role' : IntegerRole) : Nat :=
  let losesSign := signed && !signed'
  if role = .literal ∨ role' = .literal then 1
  else if width = width' then if losesSign then 2 else 1
  else if width.rank < width'.rank then
    (if losesSign then 0x20 else 0x10) + (width'.rank - width.rank)
  else (if losesSign then 0x40 else 0x30) + (width.rank - width'.rank)

end Cast

/-- The first feature level at which a string is no cast target for `u64`. -/
def stringCastLevel : Nat := 2

/-- The rules for casts between the types of a catalogue at a feature level. -/
structure CastRules (hash : NameHash) where
  types : Catalogue hash
  level : Nat

namespace CastRules

variable {hash : NameHash}

/-- A string is held as `u64`. -/
def sourceType (source : TypeId) : TypeId := if source = .string then .u64 else source

def targetType (r : CastRules hash) (target : TypeId) : TypeId :=
  if target = .string ∧ r.level < stringCastLevel then .u64 else target

/-- The cast between two types by what they are. Only an explicit cast goes from a floating number
to an integer. -/
def between (source target : DataType) (explicit : Bool) : Cast :=
  let kind := Cast.ofBases source.base target.base
  match source.shape, target.shape with
  | .integer s w role, .integer s' w' role' => ⟨kind, Cast.integerPriority s w role s' w' role'⟩
  | .integer .., .floating => ⟨kind, Cast.intToFloatPriority + source.base.widthRank⟩
  | .floating, .integer .. =>
    if explicit then ⟨kind, Cast.floatToIntPriority - target.base.widthRank⟩ else .invalid
  | .floating, .floating => ⟨kind, Cast.floatToDoublePriority⟩
  | _, _ => .invalid

def cast (r : CastRules hash) (source target : TypeId) (explicit : Bool) : Cast :=
  if source = target then ⟨.noCast, 0⟩
  else
    let source := sourceType source
    let target := r.targetType target
    if source = target then ⟨.noCast, 1⟩
    else if target = .any then ⟨.any, Cast.anyPriority⟩
    else
      match r.types.get? source, r.types.get? target with
      | some source, some target => between source target explicit
      | _, _ => .invalid

def canImplicitly (r : CastRules hash) (source target : TypeId) : Bool :=
  (r.cast source target false).isValid

def canExplicitly (r : CastRules hash) (source target : TypeId) : Bool :=
  (r.cast source target true).isValid

def implicitPriority (r : CastRules hash) (source target : TypeId) : Nat :=
  (r.cast source target false).priority

def typeName (r : CastRules hash) (id : TypeId) : String :=
  (r.types.get? id).elim id.display (·.name)

/-- The cast, or what is wrong with it. -/
def check (r : CastRules hash) (source target : TypeId) (explicit : Bool) :
    Except ErrorRecord Cast :=
  let c := r.cast source target explicit
  if c.isValid then .ok c
  else
    let message := s!"cannot cast from {r.typeName source} to {r.typeName target}"
    .error ((ErrorRecord.new .impossibleCast message).withData (.ofNat source.raw)
      (.ofNat target.raw))

def castConstant (r : CastRules hash) (v : UInt64) (source target : TypeId) :
    Except CastError UInt64 :=
  match (r.cast source target true).kind with
  | .noCast => .ok v
  | .base c => .ok (c.convert v)
  | .any | .invalid => .error .invalidCast

end CastRules
end ScriptFront
