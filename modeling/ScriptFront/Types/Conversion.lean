import ScriptFront.Diagnostic.Code
import ScriptFront.Number.Binary
import ScriptFront.Types.Base

/-! Conversions between the ways in which values are held. A value is held in 64 bits, of which a
narrower type has the low ones. -/
namespace ScriptFront

/-- What the machine does to convert a value. -/
inductive Conversion
  /-- The bits stay as they are. -/
  | keep
  | u8ToU16 | u8ToU32 | u8ToU64 | u16ToU32 | u16ToU64 | u32ToU64
  | int16To8 | int32To8 | int64To8 | int32To16 | int64To16 | int64To32
  | s8ToS16 | s8ToS32 | s8ToS64 | s16ToS32 | s16ToS64 | s32ToS64
  | intToFloat (signed : Bool) (width : IntWidth)
  | intToDouble (signed : Bool) (width : IntWidth)
  | floatToInt (signed : Bool) (width : IntWidth)
  | doubleToInt (signed : Bool) (width : IntWidth)
  | floatToDouble
  | doubleToFloat
  deriving DecidableEq, Repr

/-- A constant that has no value of another type. -/
inductive CastError
  | invalidCast
  deriving DecidableEq, Repr

def CastError.message : CastError → String
  | invalidCast => "invalid cast of constants"

def CastError.code : CastError → ErrorCode
  | invalidCast => .invalidConstantCast

/-- Only the low `bits` bits, and zeros above them. -/
def zeroExtend (v : UInt64) (bits : Nat) : UInt64 :=
  if 64 ≤ bits then v else v &&& ((1 <<< bits.toUInt64) - 1)

/-- The low `bits` bits, with the highest of them in all bits above. -/
def signExtend (v : UInt64) (bits : Nat) : UInt64 :=
  let shift := (64 - bits).toUInt64
  ((v <<< shift).toInt64 >>> shift.toInt64).toUInt64

/-- The integer in the low bits. -/
def readInt (signed : Bool) (width : IntWidth) (v : UInt64) : Int :=
  if signed then (signExtend v width.bits).toInt64.toInt else (zeroExtend v width.bits).toNat

def intRange (signed : Bool) (width : IntWidth) : Int × Int :=
  let half : Int := Nat.pow 2 (width.bits - 1)
  if signed then (-half, half - 1) else (0, Nat.pow 2 width.bits - 1)

namespace Conversion

/-- An integer that is not decided yet is converted like a signed one of 64 bits. -/
def decided : BaseType → BaseType
  | .intConst => .integer true .w64
  | t => t

/-- A wider target keeps the sign of the source. For a narrower one the sign does not matter. -/
def betweenInts : (signed : Bool) → (source target : IntWidth) → Conversion
  | _, .w8, .w8 | _, .w16, .w16 | _, .w32, .w32 | _, .w64, .w64 => keep
  | false, .w8, .w16 => u8ToU16
  | false, .w8, .w32 => u8ToU32
  | false, .w8, .w64 => u8ToU64
  | false, .w16, .w32 => u16ToU32
  | false, .w16, .w64 => u16ToU64
  | false, .w32, .w64 => u32ToU64
  | true, .w8, .w16 => s8ToS16
  | true, .w8, .w32 => s8ToS32
  | true, .w8, .w64 => s8ToS64
  | true, .w16, .w32 => s16ToS32
  | true, .w16, .w64 => s16ToS64
  | true, .w32, .w64 => s32ToS64
  | _, .w16, .w8 => int16To8
  | _, .w32, .w8 => int32To8
  | _, .w64, .w8 => int64To8
  | _, .w32, .w16 => int32To16
  | _, .w64, .w16 => int64To16
  | _, .w64, .w32 => int64To32

def between? (source target : BaseType) : Option Conversion :=
  match decided source, decided target with
  | .float, .float | .double, .double => some keep
  | .float, .double => some floatToDouble
  | .double, .float => some doubleToFloat
  | .integer signed s, .integer _ t => some (betweenInts signed s t)
  | .integer signed s, .float => some (intToFloat signed s)
  | .integer signed s, .double => some (intToDouble signed s)
  | .float, .integer signed t => some (floatToInt signed t)
  | .double, .integer signed t => some (doubleToInt signed t)
  | _, _ => none

/-- The number of a conversion in the code of the machine. -/
def code : Conversion → Nat
  | keep => 0x00
  | u8ToU16 => 0x01
  | u8ToU32 => 0x02
  | u8ToU64 => 0x03
  | u16ToU32 => 0x06
  | u16ToU64 => 0x07
  | u32ToU64 => 0x0b
  | int16To8 => 0x04
  | int32To8 => 0x08
  | int64To8 => 0x0c
  | int32To16 => 0x09
  | int64To16 => 0x0d
  | int64To32 => 0x0e
  | s8ToS16 => 0x11
  | s8ToS32 => 0x12
  | s8ToS64 => 0x13
  | s16ToS32 => 0x16
  | s16ToS64 => 0x17
  | s32ToS64 => 0x1b
  | intToFloat signed w => 0x20 + (if signed then 4 else 0) + w.rank
  | intToDouble signed w => 0x28 + (if signed then 4 else 0) + w.rank
  | floatToInt signed w => 0x30 + (if signed then 4 else 0) + w.rank
  | floatToDouble => 0x40
  | doubleToFloat => 0x41
  | doubleToInt signed w => 0x48 + (if signed then 4 else 0) + w.rank

def invalidCode : Nat := 0xff

def needsInstruction (c : Conversion) : Bool := c != keep

def readFloat (v : UInt64) : BinaryValue := BinaryFormat.single.decode (v.toNat % UInt32.size)

def readDouble (v : UInt64) : BinaryValue := BinaryFormat.double.decode v.toNat

/-- The integer between the ends of a type that is next to a number. -/
def toInt (signed : Bool) (width : IntWidth) (x : BinaryValue) : UInt64 :=
  let (low, high) := intRange signed width
  .ofInt (x.toIntWithin low high)

/-- Converts a value. On its way to a single number an integer becomes a double number first. -/
def convert (c : Conversion) (v : UInt64) : UInt64 :=
  match c with
  | keep => v
  | u8ToU16 | u8ToU32 | u8ToU64 => zeroExtend v 8
  | u16ToU32 | u16ToU64 => zeroExtend v 16
  | u32ToU64 => zeroExtend v 32
  | s8ToS16 | s8ToS32 | s8ToS64 => signExtend v 8
  | s16ToS32 | s16ToS64 => signExtend v 16
  | s32ToS64 => signExtend v 32
  | int16To8 | int32To8 | int64To8 => zeroExtend v 8
  | int32To16 | int64To16 => zeroExtend v 16
  | int64To32 => zeroExtend v 32
  | intToFloat signed w =>
    let x := BinaryFormat.double.ofInt (readInt signed w v)
    .ofNat (BinaryFormat.single.encode (BinaryFormat.double.decode x))
  | intToDouble signed w => .ofNat (BinaryFormat.double.ofInt (readInt signed w v))
  | floatToInt signed w => toInt signed w (readFloat v)
  | doubleToInt signed w => toInt signed w (readDouble v)
  | floatToDouble => .ofNat (BinaryFormat.double.encode (readFloat v))
  | doubleToFloat => .ofNat (BinaryFormat.single.encode (readDouble v))

def convert? (c : Option Conversion) (v : UInt64) : Except CastError UInt64 :=
  match c with
  | some c => .ok (c.convert v)
  | none => .error .invalidCast

end Conversion
end ScriptFront
