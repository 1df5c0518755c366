import ScriptFront.Text.Quoted

/-! Comments: `//` to the end of a line, and `/* … */`, which may go over several lines.
A literal hides the comment marks in it. -/
namespace ScriptFront.Text.Comment

def afterEnd? : List Char → Option (List Char)
  | [] => none
  | '*' :: '/' :: s => some s
  | _ :: s => afterEnd? s

theorem length_of_afterEnd? {s rest : List Char} (h : afterEnd? s = some rest) :
    rest.length < s.length := by
  fun_induction afterEnd? s with
  | case1 => cases h
  | case2 s =>
    cases h
    simp only [List.length_cons]
    omega
  | case3 c s _ ih => exact Nat.lt_succ_of_lt (ih h)

/-- A text without its comments, and whether a block comment is still open at its end. -/
structure Stripped where
  text : List Char
  isOpen : Bool
  deriving DecidableEq, Repr

namespace Stripped

def prepend (start : List Char) (s : Stripped) : Stripped := { s with text := start ++ s.text }

@[simp] theorem text_prepend (start : List Char) (s : Stripped) :
    (s.prepend start).text = start ++ s.text := rfl

@[simp] theorem isOpen_prepend (start : List Char) (s : Stripped) :
    (s.prepend start).isOpen = s.isOpen := rfl

end Stripped

/-- The text of a directive: up to `//`, and a blank for each block comment. A literal without an
end goes to the end of the line. -/
def statement (s : List Char) : Stripped :=
  match s with
  | [] => ⟨[], false⟩
  | '"' :: r =>
    match _h : Quoted.split? r with
    | none => ⟨'"' :: r, false⟩
    | some (raw, rest) => (statement rest).prepend ('"' :: raw)
  | '/' :: '/' :: _ => ⟨[], false⟩
  | '/' :: '*' :: r =>
    match _h : afterEnd? r with
    | none => ⟨[], true⟩
    | some rest => (statement rest).prepend [' ']
  | c :: r => (statement r).prepend [c]
termination_by s.length
decreasing_by
  · have := congrArg List.length (Quoted.append_of_split? _h); simp at this ⊢; omega
  · have := length_of_afterEnd? _h; simp; omega
  · simp

/-- A line of code with a blank for each block comment. `//` and a literal without an end take the
rest of the line as it is. -/
def erase (s : List Char) : Stripped :=
  match s with
  | [] => ⟨[], false⟩
  | '"' :: r =>
    match _h : Quoted.split? r with
    | none => ⟨'"' :: r, false⟩
    | some (raw, rest) => (erase rest).prepend ('"' :: raw)
  | '/' :: '/' :: r => ⟨'/' :: '/' :: r, false⟩
  | '/' :: '*' :: r =>
    match _h : afterEnd? r with
    | none => ⟨[], true⟩
    | some rest => (erase rest).prepend [' ']
  | c :: r => (erase r).prepend [c]
termination_by s.length
decreasing_by
  · have := congrArg List.length (Quoted.append_of_split? _h); simp at this ⊢; omega
  · have := length_of_afterEnd? _h; simp; omega
  · simp

end ScriptFront.Text.Comment
