import ScriptFront.Pool

/-! Lists of objects of a pool. A list holds each of its entries once, and gives up the hold when the
entry leaves it. -/
namespace ScriptFront

/-- Handles in order. Up to `room` of them need no storage of their own. -/
structure HandleList (room : Nat) where
  handles : List Handle
  /-- The list once had more entries than it has room for. -/
  spilled : Bool
  deriving DecidableEq, Repr

/-- What an operation on a list answers, and the list and the pool after it. -/
structure ListStep (room : Nat) (α β : Type) where
  result : Except PoolError β
  list : HandleList room
  pool : Pool α

namespace HandleList

variable {room : Nat} {α : Type}

def empty : HandleList room := ⟨[], false⟩

def isInline (l : HandleList room) : Bool := !l.spilled

def withHandles (l : HandleList room) (handles : List Handle) : HandleList room :=
  ⟨handles, l.spilled || room < handles.length⟩

@[simp] theorem handles_withHandles (l : HandleList room) (hs : List Handle) :
    (l.withHandles hs).handles = hs := rfl

/-- Holds an object and puts it where `place` says. -/
def hold (l : HandleList room) (pool : Pool α) (h : Handle)
    (place : List Handle → List Handle) : ListStep room α Unit :=
  match pool.retain h with
  | .error e => ⟨.error e, l, pool⟩
  | .ok (_, pool) => ⟨.ok (), l.withHandles (place l.handles), pool⟩

def add (l : HandleList room) (pool : Pool α) (h : Handle) : ListStep room α Unit :=
  l.hold pool h (· ++ [h])

/-- Puts an object before the entry at `index`, or at the end if there is none. -/
def insert (l : HandleList room) (pool : Pool α) (h : Handle) (index : Nat) :
    ListStep room α Unit :=
  l.hold pool h fun hs => hs.take index ++ h :: hs.drop index

def createWith (l : HandleList room) (pool : Pool α) (value : α)
    (place : HandleList room → Pool α → Handle → ListStep room α Unit) :
    ListStep room α Handle :=
  match pool.create value with
  | (.error e, pool) => ⟨.error e, l, pool⟩
  | (.ok h, pool) =>
    let step := place l pool h
    ⟨step.result.map fun _ => h, step.list, step.pool⟩

def createBack (l : HandleList room) (pool : Pool α) (value : α) : ListStep room α Handle :=
  l.createWith pool value add

def createAt (l : HandleList room) (pool : Pool α) (value : α) (index : Nat) :
    ListStep room α Handle :=
  l.createWith pool value fun l pool h => l.insert pool h index

/-- Gives up the hold on an entry that has left the list `l`. -/
def letGo (l : HandleList room) (pool : Pool α) (h : Handle) : ListStep room α (Option α) :=
  match pool.release h with
  | .error e => ⟨.error e, l, pool⟩
  | .ok (value, pool) => ⟨.ok value, l, pool⟩

/-- Puts an object in the place of the entry at `index`, or at the end if there is none. The new
object is held before the old one is let go, so an object can take its own place. -/
def replace (l : HandleList room) (pool : Pool α) (h : Handle) (index : Nat) :
    ListStep room α (Option α) :=
  match l.handles[index]?, l.hold pool h fun hs => if index < hs.length then hs.set index h
      else hs ++ [h] with
  | some old, ⟨.ok _, l, pool⟩ => l.letGo pool old
  | none, ⟨.ok _, l, pool⟩ => ⟨.ok none, l, pool⟩
  | _, ⟨.error e, l, pool⟩ => ⟨.error e, l, pool⟩

def erase (l : HandleList room) (pool : Pool α) (index : Nat) : ListStep room α (Option α) :=
  match l.handles[index]? with
  | none => ⟨.ok none, l, pool⟩
  | some h => (l.withHandles (l.handles.eraseIdx index)).letGo pool h

/-- Lets all of the handles go, also after one of them fails. The first failure is returned. -/
def releaseAll (pool : Pool α) : List Handle → Except PoolError Unit × Pool α
  | [] => (.ok (), pool)
  | h :: hs =>
    match pool.release h with
    | .ok (_, pool) => releaseAll pool hs
    | .error e => (.error e, (releaseAll pool hs).2)

/-- Keeps the entries of `kept` and lets those of `gone` go. -/
def keep (l : HandleList room) (pool : Pool α) (kept gone : List Handle) : ListStep room α Unit :=
  let (result, pool) := releaseAll pool gone
  ⟨result, l.withHandles kept, pool⟩

/-- Positions and counts have 64 bits. A sum that does not fit is the greatest of them. -/
def saturatingAdd (i n : Nat) : Nat := min (i + n) (UInt64.size - 1)

/-- The entries from `start` up to `stop`, and the others. -/
def drain (hs : List Handle) (start stop : Nat) : List Handle × List Handle :=
  let rest := hs.drop start
  (rest.take (stop - start), hs.take start ++ rest.drop (stop - start))

def eraseRange (l : HandleList room) (pool : Pool α) (index count : Nat) : ListStep room α Unit :=
  if l.handles.length ≤ index then ⟨.ok (), l, pool⟩
  else
    let stop := min (saturatingAdd index count) l.handles.length
    let (gone, kept) := drain l.handles index stop
    l.keep pool kept gone

/-- A flag for each entry of a list, set at the given positions, as far as the list goes. -/
def doomed (length : Nat) (indices : List Nat) : List Bool :=
  indices.foldl (fun flags index => flags.set index true) (.replicate length false)

/-- A list while entries are taken out of it. Its first `write` entries stay. -/
structure Compaction where
  items : List Handle
  write : Nat
  detached : List Handle

/-- Takes out the entry at `read`, or moves it down to those that stay. -/
def Compaction.next (doomed : List Bool) (c : Compaction) (read : Nat) : Compaction :=
  match c.items[read]?, doomed[read]? with
  | some h, some true => { c with detached := c.detached ++ [h] }
  | some h, some false => { c with items := c.items.set c.write h, write := c.write + 1 }
  | _, _ => c

/-- All entries have their places before the first one is let go. -/
def eraseIndices (l : HandleList room) (pool : Pool α) (indices : List Nat) :
    ListStep room α Unit :=
  if indices.isEmpty then ⟨.ok (), l, pool⟩
  else
    let length := l.handles.length
    let c := (List.range length).foldl (Compaction.next (doomed length indices)) ⟨l.handles, 0, []⟩
    l.keep pool (c.items.take c.write) c.detached

/-- Takes out all entries. The list is like a new one afterwards. -/
def clear (l : HandleList room) (pool : Pool α) : ListStep room α Unit :=
  let (result, pool) := releaseAll pool l.handles
  ⟨result, empty, pool⟩

/-- Moves `count` entries of `other` from `start` on to the end of `l`, as far as there are any. Their
holds move with them. -/
def moveFrom (l other : HandleList room) (start count : Nat) : HandleList room × HandleList room :=
  if other.handles.length ≤ start then (l, other)
  else
    let stop := min (saturatingAdd start count) other.handles.length
    let (moved, left) := drain other.handles start stop
    (l.withHandles (l.handles ++ moved), other.withHandles left)

def values (l : HandleList room) (pool : Pool α) : List (Except PoolError α) :=
  l.handles.map pool.get

def debugText (l : HandleList room) : String :=
  "[" ++ ", ".intercalate (l.handles.map Handle.debugText) ++ "]"

end HandleList
end ScriptFront
