import ScriptFront.Interner
import ScriptFront.Types.Base
import ScriptFront.Types.Id

/-! The catalogue of types: those of the language, and the arrays and named types that a session
adds. Nothing is ever taken out. -/
namespace ScriptFront

/-- What an integer type means apart from its width and sign. -/
inductive IntegerRole
  | plain
  /-- A literal, whose width is decided by its use. -/
  | literal
  | boolean
  deriving DecidableEq, Repr

structure Indexing where
  element : TypeId
  getter : String
  setter : String
  deriving DecidableEq, Repr

inductive TypeShape
  | void
  | any
  | integer (signed : Bool) (width : IntWidth) (role : IntegerRole)
  | floating
  | string
  | custom (indexing : Option Indexing)
  | array (element : TypeId) (length : Nat)
  deriving DecidableEq, Repr

structure DataType where
  id : TypeId
  name : String
  shape : TypeShape
  bytes : Nat
  base : BaseType
  deriving DecidableEq, Repr

namespace DataType

/-- How many words of 8 bytes a value takes. -/
def words (t : DataType) : Nat := (t.bytes + 7) / 8

def isInteger (t : DataType) : Bool :=
  match t.shape with
  | .integer .. => true
  | _ => false

def isFloating (t : DataType) : Bool := t.shape == .floating

def isLiteral (t : DataType) : Bool :=
  match t.shape with
  | .integer _ _ role => role == .literal
  | _ => false

def isSigned (t : DataType) : Bool :=
  match t.shape with
  | .integer signed _ _ => signed
  | _ => false

/-- The hash by which functions find a parameter type. A string is found as `u64`, because functions
took strings as such before there were strings. -/
def lookupHash (hash : NameHash) (t : DataType) : UInt64 :=
  if t.shape = .string then hash "u64" else hash t.name

/-- The types of the language, in the order of the catalogue. `bool` has the number of `u8`. -/
def predefined : List DataType :=
  let int (id : TypeId) (name : String) (signed : Bool) (width : IntWidth) : DataType :=
    ⟨id, name, .integer signed width .plain, width.bytes, .integer signed width⟩
  [⟨.void, "void", .void, 0, .void⟩,
   ⟨.any, "any", .any, 16, .void⟩,
   ⟨.bool, "bool", .integer false .w8 .boolean, 1, .integer false .w8⟩,
   int .u8 "u8" false .w8,
   int .u16 "u16" false .w16,
   int .u32 "u32" false .w32,
   int .u64 "u64" false .w64,
   int .s8 "s8" true .w8,
   int .s16 "s16" true .w16,
   int .s32 "s32" true .w32,
   int .s64 "s64" true .w64,
   ⟨.constInt, "const_int", .integer true .w64 .literal, 8, .intConst⟩,
   ⟨.float, "float", .floating, 4, .float⟩,
   ⟨.double, "double", .floating, 8, .double⟩,
   ⟨.string, "string", .string, 8, .integer false .w64⟩]

def bool : DataType := ⟨.bool, "bool", .integer false .w8 .boolean, 1, .integer false .w8⟩

/-- The place of a predefined number in the list of the types of the language. -/
def predefinedIndex (id : TypeId) : Nat := if id.raw < 2 then id.raw else id.raw + 1

end DataType

inductive TypeError
  | unknownType (id : TypeId)
  | duplicateName (name : String)
  | invalidElement (id : TypeId)
  | tooManyTypes
  | refusedName (c : Collision)
  deriving DecidableEq, Repr

def TypeError.message : TypeError → String
  | unknownType id => s!"unknown type id {id.debugText}"
  | duplicateName name => s!"type name `{name}` is already defined"
  | invalidElement id => s!"`{id.display}` cannot be an array element"
  | tooManyTypes => "too many types in one session"
  | refusedName c => c.message

/-- The added types in the order of their numbers, the places of names among all types with the
latest first, and the arrays. -/
structure Catalogue (hash : NameHash) where
  added : List DataType
  places : List (UInt64 × Nat)
  arrays : List ((TypeId × Nat) × TypeId)

namespace Catalogue

variable {hash : NameHash}

def new : Catalogue hash where
  added := []
  places := (DataType.predefined.zipIdx.map fun (t, i) => (hash t.name, i)).reverse
  arrays := []

/-- The names of the types of the language have to be in the table of names. -/
def enterNames (names : Interner hash) : Interner hash :=
  names.internAll (DataType.predefined.map (·.name))

def toList (c : Catalogue hash) : List DataType := DataType.predefined ++ c.added

def size (c : Catalogue hash) : Nat := c.toList.length

def get? (c : Catalogue hash) (id : TypeId) : Option DataType :=
  if id.isPredefined then DataType.predefined[DataType.predefinedIndex id]?
  else if id.isDynamic then c.added[id.raw - TypeId.firstDynamic]?
  else none

def get (c : Catalogue hash) (id : TypeId) : Except TypeError DataType :=
  match c.get? id with
  | some t => .ok t
  | none => .error (.unknownType id)

def find? (c : Catalogue hash) (name : String) : Option DataType := do
  let (_, i) ← c.places.find? (·.1 == hash name)
  let t ← c.toList[i]?
  if t.name = name then some t else none

/-- The number that the next type gets. -/
def nextId (c : Catalogue hash) : TypeId := ⟨TypeId.firstDynamic + c.added.length⟩

/-- The catalogue with one more type. From then on its name stands for it. -/
def push (c : Catalogue hash) (t : DataType) : Catalogue hash :=
  { c with added := c.added ++ [t], places := (hash t.name, c.size) :: c.places }

end Catalogue

namespace DataType

def maxBytes : Nat := UInt64.size - 1

def arrayName (element : String) (length : Nat) : String := s!"{element}[{length}]"

/-- The type of arrays whose elements have the number `element` and the type `t`. -/
def array (element : TypeId) (t : DataType) (length : Nat) (id : TypeId) : DataType where
  id
  name := arrayName t.name length
  shape := .array element length
  bytes := min (t.bytes * length) maxBytes
  base := t.base

/-- A named type that is held like `base`. -/
def custom (name : String) (base : BaseType) (indexing : Option Indexing) (id : TypeId) :
    DataType where
  id
  name
  shape := .custom indexing
  bytes := base.bytes
  base

end DataType

/-- The catalogue and the table of names, where the names of types are entered. -/
structure TypeTables (hash : NameHash) where
  types : Catalogue hash
  names : Interner hash

namespace TypeTables

variable {hash : NameHash}

/-- Adds a type under the next number, if there is one left and its name is not refused. -/
def add (s : TypeTables hash) (make : TypeId → DataType) :
    Except TypeError TypeId × TypeTables hash :=
  let id := s.types.nextId
  let t := make id
  if UInt32.size ≤ id.raw then (.error .tooManyTypes, s)
  else
    match s.names.intern t.name with
    | .error collision => (.error (.refusedName collision), s)
    | .ok (_, names) => (.ok id, ⟨s.types.push t, names⟩)

/-- The array type of an element type and a length. It is made when it is asked for first. -/
def arrayOf (s : TypeTables hash) (element : TypeId) (length : Nat) :
    Except TypeError TypeId × TypeTables hash :=
  match s.types.arrays.find? (·.1 == (element, length)) with
  | some (_, id) => (.ok id, s)
  | none =>
    match s.types.get element with
    | .error e => (.error e, s)
    | .ok t =>
      if t.shape = .void ∨ t.shape = .any then (.error (.invalidElement element), s)
      else
        match s.add (.array element t length) with
        | (.error e, s) => (.error e, s)
        | (.ok id, s) =>
          let arrays := ((element, length), id) :: s.types.arrays
          (.ok id, { s with types := { s.types with arrays } })

/-- Adds a named type, unless there is a type of that name. -/
def defineCustom (s : TypeTables hash) (name : String) (base : BaseType)
    (indexing : Option Indexing) : Except TypeError TypeId × TypeTables hash :=
  if (s.types.find? name).isSome then (.error (.duplicateName name), s)
  else s.add (.custom name base indexing)

end TypeTables
end ScriptFront
