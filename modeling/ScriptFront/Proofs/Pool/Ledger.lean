import ScriptFront.Pool
import Mathlib.Data.Finset.Card
import Mathlib.Data.Finset.Insert
import Mathlib.Logic.Function.Basic

/-! An ideal store of counted objects, which knows no slots and no generations: a ledger tells of
every handle that was ever issued whether its object is alive. `Ledger.Step` tells what each
operation may answer and what it leaves. -/
namespace ScriptFront

inductive PoolOp (α : Type)
  | create (value : α)
  | retain (h : Handle)
  | release (h : Handle)
  | get (h : Handle)
  | set (h : Handle) (value : α)
  | refs (h : Handle)
  | contains (h : Handle)
  | shrink
  deriving DecidableEq, Repr

inductive PoolAnswer (α : Type)
  | made (h : Handle)
  | count (n : Nat)
  /-- The value of an object that has died by it. -/
  | released (value : Option α)
  | value (value : α)
  | done
  | known (alive : Bool)
  | pages (n : Nat)
  | failed (e : PoolError)
  deriving DecidableEq, Repr

variable {α : Type}

/-- The handle without whose object the operation fails. -/
def PoolOp.needs? : PoolOp α → Option Handle
  | retain h | release h | get h | set h _ | refs h => some h
  | create _ | contains _ | shrink => none

/-- An operation and its answer, in the order in which they took place. -/
abbrev PoolEvent (α : Type) := PoolOp α × PoolAnswer α

/-- Only these make a generation rise: the death of an object, and giving pages back. -/
def PoolEvent.wears : PoolEvent α → Bool
  | (_, .released (some _)) | (_, .pages _) => true
  | _ => false

/-- The handles that were ever issued, the objects that are alive, and the pages that have slots. -/
structure Ledger (α : Type) where
  issued : Finset Handle
  object? : Handle → Option (Counted α)
  pages : Finset Nat

namespace Ledger

def empty : Ledger α := ⟨∅, fun _ => none, ∅⟩

def live (l : Ledger α) : Finset Handle := l.issued.filter fun h => (l.object? h).isSome

def busyPages (l : Ledger α) : Finset Nat := l.pages ∩ l.live.image fun h => Pool.pageOf h.index

/-- The ledger when the object of a handle is another one, or dead. -/
def record (l : Ledger α) (h : Handle) (object : Option (Counted α)) : Ledger α :=
  ⟨insert h l.issued, Function.update l.object? h object, insert (Pool.pageOf h.index) l.pages⟩

/-- The answers that an operation may have, and the ledger after it. -/
inductive Step (l : Ledger α) : PoolOp α → PoolAnswer α → Ledger α → Prop
  /-- A new object has a handle that no object ever had. -/
  | create (value : α) {h : Handle} (fresh : h ∉ l.issued) :
      Step l (.create value) (.made h) (l.record h (some ⟨0, value⟩))
  /-- A page that cannot be numbered gets slots, but no object. -/
  | full (value : α) {k : Nat} (no_room : Pool.maxSlots < l.live.card + pageSize)
      (unnumbered : Pool.maxSlots < (k + 1) * pageSize) (fresh : k ∉ l.pages) :
      Step l (.create value) (.failed .exhausted) { l with pages := insert k l.pages }
  | retain {h : Handle} {x : Counted α} (alive : l.object? h = some x)
      (room : x.refs < Pool.maxRefs) :
      Step l (.retain h) (.count (x.refs + 1)) (l.record h (some { x with refs := x.refs + 1 }))
  | overflow {h : Handle} {x : Counted α} (alive : l.object? h = some x)
      (no_room : Pool.maxRefs ≤ x.refs) : Step l (.retain h) (.failed (.countOverflow h.index)) l
  | release {h : Handle} {x : Counted α} (alive : l.object? h = some x) (held : 2 ≤ x.refs) :
      Step l (.release h) (.released none) (l.record h (some { x with refs := x.refs - 1 }))
  | destroy {h : Handle} {x : Counted α} (alive : l.object? h = some x) (last : x.refs ≤ 1) :
      Step l (.release h) (.released (some x.value)) (l.record h none)
  | get {h : Handle} {x : Counted α} (alive : l.object? h = some x) :
      Step l (.get h) (.value x.value) l
  | set {h : Handle} {x : Counted α} (value : α) (alive : l.object? h = some x) :
      Step l (.set h value) .done (l.record h (some { x with value }))
  | refs {h : Handle} {x : Counted α} (alive : l.object? h = some x) :
      Step l (.refs h) (.count x.refs) l
  | contains (h : Handle) : Step l (.contains h) (.known (l.object? h).isSome) l
  /-- Pages without objects lose their slots, and no object notices. -/
  | shrink : Step l .shrink (.pages (l.pages.card - l.busyPages.card))
      { l with pages := l.busyPages }
  | stale {op : PoolOp α} {h : Handle} (needs : op.needs? = some h) (dead : l.object? h = none) :
      Step l op (.failed (.stale h)) l

inductive Run : Ledger α → List (PoolEvent α) → Ledger α → Prop
  | nil (l : Ledger α) : Run l [] l
  | cons {l m n : Ledger α} {op : PoolOp α} {a : PoolAnswer α} {es : List (PoolEvent α)}
      (first : Step l op a m) (rest : Run m es n) : Run l ((op, a) :: es) n

theorem Step.issued_subset {l m : Ledger α} {op : PoolOp α} {a : PoolAnswer α}
    (s : Step l op a m) : l.issued ⊆ m.issued := by
  cases s with
  | create | retain | release | destroy | set => exact Finset.subset_insert _ _
  | _ => exact Finset.Subset.refl _

/-- A dead handle never comes back: objects that are made have other handles. -/
theorem Step.dead {l m : Ledger α} {op : PoolOp α} {a : PoolAnswer α} (s : Step l op a m)
    {h : Handle} (hi : h ∈ l.issued) (hd : l.object? h = none) : m.object? h = none := by
  have hrecord : ∀ {h' : Handle} {x : Counted α} (y : Option (Counted α)),
      l.object? h' = some x → (l.record h' y).object? h = none := by
    intro h' x y hx
    have hne : h ≠ h' := by
      rintro rfl
      rw [hd] at hx
      cases hx
    exact (Function.update_of_ne hne ..).trans hd
  cases s with
  | @create value h' fresh =>
    have hne : h ≠ h' := fun he => fresh (he ▸ hi)
    exact (Function.update_of_ne hne ..).trans hd
  | retain alive | release alive | destroy alive | set _ alive => exact hrecord _ alive
  | _ => exact hd

theorem Run.dead {l m : Ledger α} {es : List (PoolEvent α)} (r : Run l es m) {h : Handle}
    (hi : h ∈ l.issued) (hd : l.object? h = none) : m.object? h = none := by
  induction r with
  | nil => exact hd
  | cons s _ ih => exact ih (s.issued_subset hi) (s.dead hi hd)

theorem Run.issued_subset {l m : Ledger α} {es : List (PoolEvent α)} (r : Run l es m) :
    l.issued ⊆ m.issued := by
  induction r with
  | nil => exact Finset.Subset.refl _
  | cons s _ ih => exact s.issued_subset.trans ih

theorem Run.mem_issued {l m : Ledger α} {es : List (PoolEvent α)} (r : Run l es m)
    {op : PoolOp α} {h : Handle} (he : (op, .made h) ∈ es) : h ∈ m.issued := by
  induction r with
  | nil => cases he
  | cons s r ih =>
    rcases List.mem_cons.mp he with heq | he
    · cases heq
      cases s
      exact r.issued_subset (Finset.mem_insert_self _ _)
    · exact ih he

end Ledger
end ScriptFront
