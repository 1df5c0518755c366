import ScriptFront.Text.Comment

/-! Comments as an automaton sees them that reads a text character by character, line after line. On
one line of code it does what `erase` does. -/
namespace ScriptFront.Text.Comment

/-- What the characters so far mean for the next one. A `/` in code and a `*` in a block comment wait
for the next character of their line. A block comment knows the line at which it was opened. -/
inductive Scanner
  | code
  | slash
  | string
  | escape
  | lineComment
  | block (opened : Nat)
  | star (opened : Nat)
  deriving DecidableEq, Repr

namespace Scanner

/-- What is written for a character of the line `index`, and the state after it. -/
def step (index : Nat) : Scanner → Char → List Char × Scanner
  | code, '/' => ([], slash)
  | code, '"' => (['"'], string)
  | code, c => ([c], code)
  | slash, '/' => (['/', '/'], lineComment)
  | slash, '*' => ([], block index)
  | slash, '"' => (['/', '"'], string)
  | slash, c => (['/', c], code)
  | string, '"' => (['"'], code)
  | string, '\\' => (['\\'], escape)
  | string, c => ([c], string)
  | escape, c => ([c], string)
  | lineComment, c => ([c], lineComment)
  | block opened, '*' => ([], star opened)
  | block opened, _ => ([], block opened)
  | star _, '/' => ([' '], code)
  | star opened, '*' => ([], star opened)
  | star opened, _ => ([], block opened)

/-- What the end of a line writes. Only a block comment goes on in the next line. -/
def endLine : Scanner → List Char × Scanner
  | slash => (['/'], code)
  | block opened | star opened => ([], block opened)
  | code | string | escape | lineComment => ([], code)

def scanLine (index : Nat) (st : Scanner) : Line → Line × Scanner
  | [] => st.endLine
  | c :: s =>
    let (start, st) := st.step index c
    let (rest, st) := scanLine index st s
    (start ++ rest, st)

/-- Scans lines with the given index and the following ones. -/
def scanLines (index : Nat) (st : Scanner) : List Line → List Line × Scanner
  | [] => ([], st)
  | line :: lines =>
    let (line, st) := st.scanLine index line
    let (lines, st) := scanLines (index + 1) st lines
    (line :: lines, st)

/-- The line at which the open block comment began. -/
def opened? : Scanner → Option Nat
  | block opened | star opened => some opened
  | _ => none

/-- The state at the start of a line. -/
def atStart : Option Nat → Scanner
  | none => code
  | some opened => block opened

variable {index opened : Nat}

@[simp] theorem opened?_atStart (o : Option Nat) : (atStart o).opened? = o := by
  cases o <;> rfl

theorem scanLine_cons (st : Scanner) (c : Char) (s : List Char) :
    st.scanLine index (c :: s) = ((st.step index c).1 ++ ((st.step index c).2.scanLine index s).1,
      ((st.step index c).2.scanLine index s).2) := rfl

theorem scanLine_lineComment (s : List Char) : lineComment.scanLine index s = (s, code) := by
  induction s with
  | nil => rfl
  | cons c s ih => simp only [scanLine_cons, step, ih, List.singleton_append]

/-- The rest of a literal is copied, and what follows it is code. -/
theorem scanLine_string (s : List Char) : string.scanLine index s =
    match Quoted.split? s with
    | none => (s, code)
    | some (raw, rest) => (raw ++ (code.scanLine index rest).1, (code.scanLine index rest).2) := by
  fun_induction Quoted.split? s with
  | case1 => rfl
  | case2 s => rfl
  | case3 c s ih =>
    have hstep : string.scanLine index ('\\' :: c :: s) =
        ('\\' :: c :: (string.scanLine index s).1, (string.scanLine index s).2) := rfl
    rw [hstep, ih]
    cases Quoted.split? s <;> rfl
  | case4 c s hquote hescape ih =>
    have hc : c ≠ '"' := fun h => hquote h
    by_cases he : c = '\\'
    · subst he
      -- a backslash at the end of the line has nothing to escape
      cases s with
      | nil => rfl
      | cons d s => exact absurd rfl (hescape d s rfl)
    · have hstep : string.step index c = ([c], string) := by simp only [step]
      rw [scanLine_cons, hstep, ih]
      cases Quoted.split? s <;> rfl

/-- A `*` that waits matters for a `/` only. -/
theorem scanLine_star {s : List Char} (h : s.head? ≠ some '/') :
    (star opened).scanLine index s = (block opened).scanLine index s := by
  cases s with
  | nil => rfl
  | cons c s =>
    have hc : c ≠ '/' := fun he => h (congrArg some he)
    have hstep : (star opened).step index c = (block opened).step index c := by
      by_cases hs : c = '*'
      · subst hs; rfl
      · simp only [step]
    rw [scanLine_cons, scanLine_cons, hstep]

/-- A block comment goes up to its end, which leaves a blank. -/
theorem scanLine_block (s : List Char) : (block opened).scanLine index s =
    match afterEnd? s with
    | none => ([], block opened)
    | some rest => (' ' :: (code.scanLine index rest).1, (code.scanLine index rest).2) := by
  fun_induction afterEnd? s with
  | case1 => rfl
  | case2 s => rfl
  | case3 c s hend ih =>
    have hstep : (block opened).scanLine index (c :: s) = (block opened).scanLine index s := by
      by_cases hc : c = '*'
      · subst hc
        refine (?_ : _ = (star opened).scanLine index s).trans (scanLine_star fun hs => ?_)
        · rfl
        · obtain ⟨s', rfl⟩ := List.head?_eq_some_iff.mp hs
          exact hend s' rfl rfl
      · have : (block opened).step index c = ([], block opened) := by simp only [step]
        rw [scanLine_cons, this]
        rfl
    rw [hstep, ih]

/-- A `/` that waits is code if it begins no comment. -/
theorem scanLine_slash {s : List Char} (hline : s.head? ≠ some '/') (hblock : s.head? ≠ some '*') :
    slash.scanLine index s = ('/' :: (code.scanLine index s).1, (code.scanLine index s).2) := by
  cases s with
  | nil => rfl
  | cons c s =>
    have hl : c ≠ '/' := fun he => hline (congrArg some he)
    have hb : c ≠ '*' := fun he => hblock (congrArg some he)
    have hstep : slash.step index c =
        ('/' :: (code.step index c).1, (code.step index c).2) := by
      by_cases hq : c = '"'
      · subst hq; rfl
      · simp only [step]
    rw [scanLine_cons, hstep]
    rfl

/-- On a line of code the automaton erases comments as `erase` does. -/
theorem scanLine_code (s : List Char) : code.scanLine index s =
    ((erase s).text, if (erase s).isOpen then block index else code) := by
  fun_induction erase s with
  | case1 => rfl
  | case2 r h =>
    rw [scanLine_cons]
    show ('"' :: (string.scanLine index r).1, (string.scanLine index r).2) = _
    rw [scanLine_string, h]
    rfl
  | case3 r raw rest h ih =>
    rw [scanLine_cons]
    show ('"' :: (string.scanLine index r).1, (string.scanLine index r).2) = _
    simp only [scanLine_string, h, ih]
    rfl
  | case4 r =>
    show ('/' :: '/' :: (lineComment.scanLine index r).1, (lineComment.scanLine index r).2) = _
    rw [scanLine_lineComment]
    rfl
  | case5 r h =>
    show (block index).scanLine index r = _
    rw [scanLine_block, h]
    rfl
  | case6 r rest h ih =>
    show (block index).scanLine index r = _
    simp only [scanLine_block, h, ih]
    rfl
  | case7 c r hq hl hb ih =>
    by_cases hc : c = '/'
    · subst hc
      have hline : r.head? ≠ some '/' := fun h =>
        (List.head?_eq_some_iff.mp h).elim fun r' hr => hl r' rfl hr
      have hblock : r.head? ≠ some '*' := fun h =>
        (List.head?_eq_some_iff.mp h).elim fun r' hr => hb r' rfl hr
      show slash.scanLine index r = _
      rw [scanLine_slash hline hblock, ih]
      rfl
    · have hstep : code.step index c = ([c], code) := by
        have hq' : c ≠ '"' := hq
        simp only [step]
      rw [scanLine_cons, hstep, ih]
      rfl

end Scanner
end ScriptFront.Text.Comment
