/-! A store of counted objects behind handles. Objects lie in pages of slots. A slot has a generation
that rises when its object dies, so a handle that outlives its object is refused. -/
namespace ScriptFront

/-- The place of an object, and the generation that the place had when the object was made. -/
structure Handle where
  index : Nat
  generation : UInt32
  deriving DecidableEq, Repr

def Handle.text (h : Handle) : String := s!"{h.index}v{h.generation.toNat}"

def Handle.debugText (h : Handle) : String := s!"Handle({h.text})"

inductive PoolError
  | stale (h : Handle)
  /-- The object cannot be held once more. -/
  | countOverflow (index : Nat)
  /-- No further page can be numbered. -/
  | exhausted
  deriving DecidableEq, Repr

def PoolError.message : PoolError → String
  | stale h => s!"stale handle: slot {h.index} generation {h.generation.toNat}"
  | countOverflow index => s!"reference count overflow on slot {index}"
  | exhausted => "pool capacity exhausted"

/-- A value and how often it is held. -/
structure Counted (α : Type) where
  refs : Nat
  value : α
  deriving DecidableEq, Repr

structure Slot (α : Type) where
  generation : UInt32
  object : Option (Counted α)
  deriving DecidableEq, Repr

def pageSize : Nat := 256

/-- The slots of a page are given back when it holds no object. Slots that are made later start at
`nextGeneration`. -/
structure Page (α : Type) where
  slots : Option (Vector (Slot α) pageSize)
  nextGeneration : UInt32
  live : Nat

/-- Pages, the free slots with the next one in front, and the number of objects. -/
structure Pool (α : Type) where
  pages : List (Page α)
  free : List Nat
  live : Nat

namespace Page

variable {α : Type}

def isResident (p : Page α) : Bool := p.slots.isSome

def allocate (p : Page α) : Page α :=
  { p with slots := some (Vector.replicate pageSize ⟨p.nextGeneration, none⟩) }

def fresh : Page α := Page.allocate ⟨none, 0, 0⟩

/-- Takes its slots from a page that holds no object. -/
def reclaim (p : Page α) : Page α :=
  match p.slots with
  | some slots =>
    if p.live = 0 then
      { p with
        slots := none
        nextGeneration := slots.foldl (fun g slot => max g slot.generation) 0 + 1 }
    else p
  | none => p

def slot? (p : Page α) (offset : Fin pageSize) : Option (Slot α) :=
  p.slots.map fun slots => slots[offset]

def setSlot (p : Page α) (offset : Fin pageSize) (s : Slot α) : Page α :=
  { p with slots := p.slots.map fun slots => slots.set offset s }

end Page

namespace Pool

variable {α : Type}

def empty : Pool α := ⟨[], [], 0⟩

def pageOf (index : Nat) : Nat := index / pageSize

def offsetOf (index : Nat) : Fin pageSize := ⟨index % pageSize, Nat.mod_lt _ (by decide)⟩

def slot? (p : Pool α) (index : Nat) : Option (Slot α) :=
  p.pages[pageOf index]?.bind (·.slot? (offsetOf index))

def setSlot (p : Pool α) (index : Nat) (s : Slot α) : Pool α :=
  { p with pages := p.pages.modify (pageOf index) (·.setSlot (offsetOf index) s) }

def find? (p : Pool α) (h : Handle) : Option (Counted α) :=
  (p.slot? h.index).bind fun slot => if slot.generation = h.generation then slot.object else none

def find (p : Pool α) (h : Handle) : Except PoolError (Counted α) :=
  match p.find? h with
  | some object => .ok object
  | none => .error (.stale h)

def setObject (p : Pool α) (h : Handle) (object : Counted α) : Pool α :=
  p.setSlot h.index ⟨h.generation, some object⟩

def setPageLive (p : Pool α) (index : Nat) (f : Nat → Nat) : List (Page α) :=
  p.pages.modify (pageOf index) fun page => { page with live := f page.live }

def maxSlots : Nat := UInt32.size - 1

/-- Makes the slots of one page available: of the first page without slots, or of a new one. If they
cannot be numbered, the page has its slots nevertheless, but they are not free for use. -/
def grow (p : Pool α) : Except PoolError Unit × Pool α :=
  let i := p.pages.findIdx (!·.isResident)
  let pages := if i < p.pages.length then p.pages.modify i Page.allocate else p.pages ++ [.fresh]
  if maxSlots < (i + 1) * pageSize then (.error .exhausted, { p with pages })
  else (.ok (), { p with pages, free := List.range' (i * pageSize) pageSize ++ p.free })

def place (p : Pool α) (value : α) : Except PoolError Handle × Pool α :=
  match p.free with
  | [] => (.error .exhausted, p)
  | index :: free =>
    match p.slot? index with
    | none => (.error .exhausted, { p with free })
    | some slot =>
      let h : Handle := ⟨index, slot.generation⟩
      let p := p.setObject h ⟨0, value⟩
      (.ok h, { p with pages := p.setPageLive index (· + 1), free, live := p.live + 1 })

/-- A new object, which nothing holds yet. -/
def create (p : Pool α) (value : α) : Except PoolError Handle × Pool α :=
  if p.free.isEmpty then
    match p.grow with
    | (.error e, p) => (.error e, p)
    | (.ok _, p) => p.place value
  else p.place value

def maxRefs : Nat := UInt32.size - 1

def retain (p : Pool α) (h : Handle) : Except PoolError (Nat × Pool α) := do
  let object ← p.find h
  if object.refs < maxRefs then
    return (object.refs + 1, p.setObject h { object with refs := object.refs + 1 })
  else throw (.countOverflow h.index)

def destroy (p : Pool α) (h : Handle) : Pool α :=
  let p := p.setSlot h.index ⟨h.generation + 1, none⟩
  { p with
    pages := p.setPageLive h.index (· - 1)
    free := h.index :: p.free
    live := p.live - 1 }

/-- Gives up one hold. An object that was held at most once dies, and its value is returned. -/
def release (p : Pool α) (h : Handle) : Except PoolError (Option α × Pool α) := do
  let object ← p.find h
  if 2 ≤ object.refs then
    return (none, p.setObject h { object with refs := object.refs - 1 })
  else return (some object.value, p.destroy h)

def get (p : Pool α) (h : Handle) : Except PoolError α := (p.find h).map (·.value)

def set (p : Pool α) (h : Handle) (value : α) : Except PoolError (Pool α) :=
  (p.find h).map fun object => p.setObject h { object with value }

def refs (p : Pool α) (h : Handle) : Except PoolError Nat := (p.find h).map (·.refs)

def contains (p : Pool α) (h : Handle) : Bool := (p.find? h).isSome

def residentPages (p : Pool α) : Nat := p.pages.countP (·.isResident)

def capacity (p : Pool α) : Nat := p.residentPages * pageSize

/-- Takes the slots of all pages without objects, and tells how many pages these were. -/
def shrink (p : Pool α) : Nat × Pool α :=
  let pages := p.pages.map Page.reclaim
  let isResident (index : Nat) : Bool := pages[pageOf index]?.any (·.isResident)
  let count := p.pages.countP fun page => page.isResident && page.live == 0
  (count, { p with pages, free := p.free.filter isResident })

def debugText (p : Pool α) : String :=
  "Pool \x7b live: " ++ toString p.live ++ ", pages: " ++ toString p.residentPages ++ " \x7d"

end Pool
end ScriptFront
