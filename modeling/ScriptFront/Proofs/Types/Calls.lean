import ScriptFront.Proofs.Interner.Knows
import ScriptFront.Types.Catalogue

/-! Calls to a catalogue of types, one after the other, and what can be wrong with them. -/
namespace ScriptFront

inductive TypeCall
  | arrayOf (element : TypeId) (length : Nat)
  | defineCustom (name : String) (base : BaseType) (indexing : Option Indexing)
  | get (id : TypeId)
  | find (name : String)
  /-- Someone else enters a text in the table of names. -/
  | intern (text : String)
  deriving DecidableEq, Repr

inductive TypeAnswer
  | made (id : TypeId)
  | type (t : DataType)
  | absent
  | entered
  | failed (e : TypeError)
  deriving DecidableEq, Repr

namespace TypeAnswer

def ofMade : Except TypeError TypeId → TypeAnswer
  | .ok id => made id
  | .error e => failed e

end TypeAnswer

/-- The call that makes a type. -/
def DataType.origin? (t : DataType) : Option TypeCall :=
  match t.shape with
  | .array element length => some (.arrayOf element length)
  | .custom indexing => some (.defineCustom t.name t.base indexing)
  | _ => none

namespace Catalogue

variable {hash : NameHash}

/-- The catalogue with one more array type, which is found by its element and length from then on. -/
def pushArray (c : Catalogue hash) (element : TypeId) (length : Nat) (t : DataType) :
    Catalogue hash :=
  { c.push (.array element t length c.nextId) with
    arrays := ((element, length), c.nextId) :: c.arrays }

/-- The type that a call asks for, if there is no such type yet, and the catalogue with it. -/
inductive Makes (c : Catalogue hash) : TypeCall → DataType → Catalogue hash → Prop
  | array {element : TypeId} {length : Nat} {t : DataType} (hfound : c.get? element = some t)
      (hvoid : t.shape ≠ .void) (hany : t.shape ≠ .any)
      (hnew : ∀ u ∈ c.toList, u.shape ≠ .array element length) :
      Makes c (.arrayOf element length) (.array element t length c.nextId)
        (c.pushArray element length t)
  | custom {name : String} {base : BaseType} {indexing : Option Indexing}
      (hnew : ∀ u ∈ c.toList, u.name ≠ name) :
      Makes c (.defineCustom name base indexing) (.custom name base indexing c.nextId)
        (c.push (.custom name base indexing c.nextId))

end Catalogue

namespace TypeTables

variable {hash : NameHash}

/-- No types but those of the language. -/
def new (names : Interner hash) : TypeTables hash := ⟨.new, Catalogue.enterNames names⟩

@[simp] theorem new_types (names : Interner hash) : (new names).types = .new := by rw [new]

@[simp] theorem new_names (names : Interner hash) : (new names).names = Catalogue.enterNames names := by
  rw [new]

def answer (s : TypeTables hash) : TypeCall → TypeAnswer × TypeTables hash
  | .arrayOf element length =>
    let (result, s') := s.arrayOf element length
    (.ofMade result, s')
  | .defineCustom name base indexing =>
    let (result, s') := s.defineCustom name base indexing
    (.ofMade result, s')
  | .get id =>
    match s.types.get id with
    | .ok t => (.type t, s)
    | .error e => (.failed e, s)
  | .find name =>
    match s.types.find? name with
    | some t => (.type t, s)
    | none => (.absent, s)
  | .intern text =>
    match s.names.intern text with
    | .ok (_, names) => (.entered, { s with names })
    | .error collision => (.failed (.refusedName collision), s)

/-- Calls one after the other with their answers, and the tables after them. -/
def run (s : TypeTables hash) : List TypeCall → List (TypeCall × TypeAnswer) × TypeTables hash
  | [] => ([], s)
  | call :: calls =>
    let (answer, s') := s.answer call
    let (events, s'') := s'.run calls
    ((call, answer) :: events, s'')

/-- What can be wrong with a call. -/
inductive Fault (s : TypeTables hash) : TypeCall → TypeError → Prop
  | unknownType {id : TypeId} (hnone : s.types.get? id = none) : Fault s (.get id) (.unknownType id)
  | unknownElement {element : TypeId} {length : Nat} (hnone : s.types.get? element = none) :
      Fault s (.arrayOf element length) (.unknownType element)
  | invalidElement {element : TypeId} {length : Nat} {t : DataType}
      (hfound : s.types.get? element = some t) (hshape : t.shape = .void ∨ t.shape = .any) :
      Fault s (.arrayOf element length) (.invalidElement element)
  | duplicateName {name : String} {base : BaseType} {indexing : Option Indexing}
      (hname : ∃ t ∈ s.types.toList, t.name = name) :
      Fault s (.defineCustom name base indexing) (.duplicateName name)
  | tooManyTypes {call : TypeCall} {t : DataType} {c : Catalogue hash} (hmakes : s.types.Makes call t c)
      (hfull : UInt32.size ≤ t.id.raw) : Fault s call .tooManyTypes
  | refusedName {call : TypeCall} {t : DataType} {c : Catalogue hash} {collision : Collision}
      (hmakes : s.types.Makes call t c) (hrefused : s.names.intern t.name = .error collision) :
      Fault s call (.refusedName collision)
  | refusedText {text : String} {collision : Collision}
      (hrefused : s.names.intern text = .error collision) :
      Fault s (.intern text) (.refusedName collision)

/-- What a call is answered, and the tables after it. -/
inductive Outcome (s : TypeTables hash) : TypeCall → TypeAnswer → TypeTables hash → Prop
  | made {call : TypeCall} {t : DataType} {c : Catalogue hash} {name : Name} {names : Interner hash}
      (hmakes : s.types.Makes call t c) (hroom : t.id.raw < UInt32.size)
      (hname : s.names.intern t.name = .ok (name, names)) : Outcome s call (.made t.id) ⟨c, names⟩
  | again {element : TypeId} {length : Nat} {t : DataType} (ht : t ∈ s.types.toList)
      (hshape : t.shape = .array element length) :
      Outcome s (.arrayOf element length) (.made t.id) s
  | failed {call : TypeCall} {e : TypeError} (hfault : Fault s call e) : Outcome s call (.failed e) s
  | got {id : TypeId} {t : DataType} (hfound : s.types.get? id = some t) :
      Outcome s (.get id) (.type t) s
  /-- Of more types of one name, the latest one. -/
  | found {name : String} {t : DataType}
      (hfound : s.types.toList.reverse.find? (·.name == name) = some t) :
      Outcome s (.find name) (.type t) s
  | absent {name : String} (hnone : ∀ t ∈ s.types.toList, t.name ≠ name) :
      Outcome s (.find name) .absent s
  | entered {text : String} {name : Name} {names : Interner hash}
      (hname : s.names.intern text = .ok (name, names)) :
      Outcome s (.intern text) .entered { s with names }

end TypeTables
end ScriptFront
