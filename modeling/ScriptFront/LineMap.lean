import ScriptFront.Diagnostic.Record

/-! From the lines of the combined text back to the files that they come from. The combined text is a
row of intervals, each a run of lines of one file. All lines are counted from 0. -/
namespace ScriptFront

/-- The combined lines from `start` on are those of `file` from `offset` on. -/
structure LineInterval where
  start : Nat
  file : SourceFile
  offset : Nat
  deriving DecidableEq, Repr

/-- No line has a greater number. -/
def maxLine : Nat := UInt32.size - 1

/-- The number of a line of a file in messages, where the first line is 1. -/
def lineNumber (index : Nat) : Nat := min (index + 1) maxLine

inductive LineMapError
  | empty
  deriving DecidableEq, Repr

def LineMapError.message : LineMapError → String
  | empty => "no line intervals recorded"

/-- The end of the places from `base` on that have `p`, searched for among `size` places by halving.
The places that have `p` come before the others. -/
def boundary (p : Nat → Bool) (base size : Nat) : Nat :=
  if size = 0 then base
  else if size = 1 then if p base then base + 1 else base
  else
    let half := size / 2
    if p (base + half) then boundary p (base + half) (size - half)
    else boundary p base (size - half)
termination_by size

theorem boundary_eq {p : Nat → Bool} {base size n : Nat} (hlo : base ≤ n) (hhi : n ≤ base + size)
    (hp : ∀ i, base ≤ i → i < base + size → (p i = true ↔ i < n)) :
    boundary p base size = n := by
  fun_induction boundary p base size with
  | case1 => omega
  | case2 base h => have := (hp base (by omega) (by omega)).1 h; omega
  | case3 base h => have := mt (hp base (by omega) (by omega)).2 h; omega
  | case4 base size _ _ half h ih =>
    have := (hp (base + half) (by omega) (by omega)).1 h
    exact ih (by omega) (by omega) fun i _ _ => hp i (by omega) (by omega)
  | case5 base size _ _ half h ih =>
    have := mt (hp (base + half) (by omega) (by omega)).2 h
    exact ih (by omega) (by omega) fun i _ _ => hp i (by omega) (by omega)

/-- Intervals with the least start first. -/
structure LineMap where
  intervals : Array LineInterval
  deriving DecidableEq, Repr

namespace LineMap

def empty : LineMap := ⟨#[]⟩

def size (m : LineMap) : Nat := m.intervals.size

def isEmpty (m : LineMap) : Bool := m.intervals.isEmpty

/-- Starts an interval. It takes the place of the last one if that has the same start. -/
def push (m : LineMap) (i : LineInterval) : LineMap :=
  if m.intervals.back?.any (·.start == i.start) then ⟨m.intervals.pop.push i⟩
  else ⟨m.intervals.push i⟩

def startsBy (m : LineMap) (line i : Nat) : Bool := m.intervals[i]?.any (·.start ≤ line)

/-- The interval that a line is in: the last one with no greater start, or the first one. -/
def find? (m : LineMap) (line : Nat) : Option LineInterval :=
  m.intervals[boundary (m.startsBy line) 0 m.size - 1]?

def translate (m : LineMap) (line : Nat) : Except LineMapError (SourceFile × Nat) :=
  match m.find? line with
  | some i => .ok (i.file, min (line - i.start + i.offset) maxLine)
  | none => .error .empty

end LineMap
end ScriptFront
