import ScriptFront.Text.Hash
import ScriptFront.Text.Literal

/-! A table that keeps each name once and finds it by its hash alone. Two names with one hash cannot
both be in it. -/
namespace ScriptFront

/-- A name in a table. Its number tells it apart, so two names are compared without their texts. -/
structure Name where
  number : Nat
  hash : UInt64
  text : String
  deriving DecidableEq, Repr

/-- A name that cannot be entered because `existing` has its hash. -/
structure Collision where
  hash : UInt64
  existing : String
  incoming : String
  deriving DecidableEq, Repr

/-- Sixteen hexadecimal digits in capitals. -/
def hexWord (n : UInt64) : String :=
  let digits := (Nat.toDigits 16 n.toNat).map Char.toUpper
  String.ofList (List.replicate (16 - digits.length) '0' ++ digits)

def Collision.message (c : Collision) : String :=
  s!"hash collision 0x{hexWord c.hash} between {quoted c.existing} and {quoted c.incoming}"

/-- Names by their hashes, spread over sixteen shards. -/
structure Interner (hash : NameHash) where
  shards : Vector (List Name) 16
  size : Nat

namespace Interner

variable {hash : NameHash}

def empty : Interner hash := ⟨Vector.replicate 16 [], 0⟩

def shardOf (h : UInt64) : Fin 16 := ⟨h.toNat % 16, Nat.mod_lt _ (by decide)⟩

def get? (t : Interner hash) (h : UInt64) : Option Name :=
  t.shards[shardOf h].find? fun name => name.hash == h

/-- Enters a name, or finds it if it is there already. -/
def intern (t : Interner hash) (text : String) : Except Collision (Name × Interner hash) :=
  let h := hash text
  match t.get? h with
  | some name =>
    if name.text = text then .ok (name, t) else .error ⟨h, name.text, text⟩
  | none =>
    let name : Name := ⟨t.size, h, text⟩
    let i := shardOf h
    .ok (name, ⟨t.shards.set i (name :: t.shards[i]), t.size + 1⟩)

/-- Enters those of the names that no other name keeps out. -/
def internAll (t : Interner hash) (names : List String) : Interner hash :=
  names.foldl (fun t name => ((t.intern name).toOption.map (·.2)).getD t) t

def languageWords : List String :=
  ["function", "global", "constant", "define", "declare", "return", "call", "jump",
   "break", "continue", "if", "else", "while", "for", "addressof", "void", "any", "bool",
   "u8", "u16", "u32", "u64", "s8", "s16", "s32", "s64", "float", "double", "string"]

def new : Interner hash := empty.internAll languageWords

end Interner
end ScriptFront
