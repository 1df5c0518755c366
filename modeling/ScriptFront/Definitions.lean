import ScriptFront.Text.Hash

/-! The names that a script defines, with their values. The table finds a name by its hash, but names
with one hash are told apart. -/
namespace ScriptFront

structure Definition where
  name : String
  value : Int64
  deriving DecidableEq, Repr

/-- The definitions of the names with one hash. -/
structure Bucket where
  hash : UInt64
  entries : List Definition
  deriving DecidableEq, Repr

structure Definitions (hash : NameHash) where
  buckets : List Bucket
  size : Nat

namespace Bucket

def get? (b : Bucket) (name : String) : Option Definition := b.entries.find? (·.name == name)

/-- Gives a name a value. A new name comes last. -/
def set (b : Bucket) (d : Definition) : Bucket :=
  if (b.get? d.name).isSome then
    { b with entries := b.entries.map fun e => if e.name = d.name then d else e }
  else { b with entries := b.entries ++ [d] }

def erase (b : Bucket) (name : String) : Bucket :=
  { b with entries := b.entries.eraseP (·.name == name) }

end Bucket

namespace Definitions

variable {hash : NameHash}

def empty : Definitions hash := ⟨[], 0⟩

def bucket? (d : Definitions hash) (h : UInt64) : Option Bucket := d.buckets.find? (·.hash == h)

def get? (d : Definitions hash) (name : String) : Option Definition :=
  (d.bucket? (hash name)).bind (·.get? name)

/-- A name that is not defined has the value 0, so a condition can ask for any name. -/
def value (d : Definitions hash) (name : String) : Int64 := (d.get? name).elim 0 (·.value)

def contains (d : Definitions hash) (name : String) : Bool := (d.get? name).isSome

def isEmpty (d : Definitions hash) : Bool := d.size == 0

/-- The buckets with the one of a hash changed. -/
def change (d : Definitions hash) (h : UInt64) (f : Bucket → Bucket) : List Bucket :=
  d.buckets.map fun b => if b.hash = h then f b else b

def set (d : Definitions hash) (name : String) (value : Int64) : Option Int64 × Definitions hash :=
  let h := hash name
  let buckets :=
    if (d.bucket? h).isSome then d.change h (·.set ⟨name, value⟩)
    else d.buckets ++ [⟨h, [⟨name, value⟩]⟩]
  match d.get? name with
  | some old => (some old.value, { d with buckets })
  | none => (none, ⟨buckets, d.size + 1⟩)

def remove (d : Definitions hash) (name : String) : Option Definition × Definitions hash :=
  let h := hash name
  match d.get? name with
  | none => (none, d)
  | some old =>
    let buckets := d.change h (·.erase name)
    (some old, ⟨buckets.filter (!·.entries.isEmpty), d.size - 1⟩)

def extend (d : Definitions hash) (pairs : List (String × Int64)) : Definitions hash :=
  pairs.foldl (fun d (name, value) => (d.set name value).2) d

def ofList (pairs : List (String × Int64)) : Definitions hash := empty.extend pairs

def toList (d : Definitions hash) : List Definition := d.buckets.flatMap (·.entries)

end Definitions
end ScriptFront
