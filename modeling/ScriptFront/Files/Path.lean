import ScriptFront.Text

/-! Paths: how they are put together, and the names in them. -/
namespace ScriptFront

/-- A path as it is written, or a name in it. -/
abbrev Path := List Char

namespace Path

def isAbsolute (p : Path) : Bool := p.head? == some '/'

/-- The path `right` seen from the directory `left`. An absolute path is the same from everywhere. -/
def join (left right : Path) : Path :=
  if right.isAbsolute then right
  else if left.isEmpty ∨ left.getLast? = some '/' then left ++ right
  else left ++ '/' :: right

def withSlashes (p : Path) : Path := p.map fun c => if c = '\\' then '/' else c

/-- The parts between the slashes. There is always one, which may be empty. -/
def segments : Path → List Path
  | [] => [[]]
  | c :: p =>
    if c = '/' then [] :: segments p
    else
      match segments p with
      | [] => [[c]]
      | s :: ss => (c :: s) :: ss

theorem segments_ne_nil (p : Path) : p.segments ≠ [] := by
  unfold segments
  repeat' split
  all_goals simp

/-- The directory and the last name. A path without a slash has the empty directory. -/
def splitLast (p : Path) : Path × Path :=
  let name := p.reverse.takeWhile (· != '/')
  ((p.reverse.drop (name.length + 1)).reverse, name.reverse)

theorem not_mem_splitLast (p : Path) : '/' ∉ (splitLast p).2 := by
  have h := List.all_takeWhile (l := p.reverse) (p := (· != '/'))
  simp only [List.all_eq_true, bne_iff_ne, ne_eq] at h
  intro hm
  exact h _ (List.mem_reverse.1 hm) rfl

/-- Whether a name ends in `suffix` and has something before it. -/
def hasExtension (name suffix : Path) : Bool :=
  suffix.isSuffixOf name && suffix.length < name.length

end Path

/-- Where a file is: the names on the way to it from the root. -/
abbrev Place := List Path

def Place.path : Place → Path
  | [] => ['/']
  | p => p.flatMap ('/' :: ·)

end ScriptFront
