/-! The numbers of types. -/
namespace ScriptFront

/-- The number of a type. The types of the language have fixed numbers, those that a session makes
follow from `firstDynamic` on. -/
structure TypeId where
  raw : Nat
  deriving DecidableEq, Repr

namespace TypeId

def void : TypeId := ⟨0⟩
def any : TypeId := ⟨1⟩
def u8 : TypeId := ⟨2⟩
/-- A truth value has the number of `u8`: older scripts pass one for the other. -/
def bool : TypeId := u8
def u16 : TypeId := ⟨3⟩
def u32 : TypeId := ⟨4⟩
def u64 : TypeId := ⟨5⟩
def s8 : TypeId := ⟨6⟩
def s16 : TypeId := ⟨7⟩
def s32 : TypeId := ⟨8⟩
def s64 : TypeId := ⟨9⟩
def constInt : TypeId := ⟨10⟩
def float : TypeId := ⟨11⟩
def double : TypeId := ⟨12⟩
def string : TypeId := ⟨13⟩

/-- How many numbers the types of the language have. -/
def predefinedCount : Nat := 14

def firstDynamic : Nat := 64

def isPredefined (id : TypeId) : Bool := id.raw < predefinedCount

def isDynamic (id : TypeId) : Bool := firstDynamic ≤ id.raw

def names : List String :=
  ["void", "any", "u8", "u16", "u32", "u64", "s8", "s16", "s32", "s64",
   "const_int", "float", "double", "string"]

def name? (id : TypeId) : Option String := names[id.raw]?

/-- The name, or the number of a type that has none here. -/
def display (id : TypeId) : String := id.name?.getD s!"<type {id.raw}>"

/-- The name or number for messages to the makers of a tool. -/
def debugText (id : TypeId) : String :=
  match id.name? with
  | some name => s!"TypeId::{name}"
  | none => s!"TypeId({id.raw})"

def ofWord? : String → Option TypeId
  | "void" => some void
  | "any" => some any
  | "bool" => some bool
  | "u8" => some u8
  | "u16" => some u16
  | "u32" => some u32
  | "u64" => some u64
  | "s8" => some s8
  | "s16" => some s16
  | "s32" => some s32
  | "s64" => some s64
  | "float" => some float
  | "double" => some double
  | "string" => some string
  | _ => none

end TypeId
end ScriptFront
