import ScriptFront.Proofs.Comment.Gap
import ScriptFront.Proofs.Preprocess.DirectiveComment

/-! The text of a directive. A directive and a line of code lose their comments in two different
scans. Both agree: the text of a directive is what the line would become as code, up to its first
`//` outside of literals. -/
namespace ScriptFront

open Text.Comment (erase statement)

namespace Text

/-- Whether the characters so far leave a literal open, and in it a backslash. -/
inductive LiteralState
  | outside
  | inside
  | escaped
  deriving DecidableEq, Repr

namespace LiteralState

def step : LiteralState → Char → LiteralState
  | outside, '"' => inside
  | outside, _ => outside
  | inside, '"' => outside
  | inside, '\\' => escaped
  | inside, _ => inside
  | escaped, _ => inside

/-- What stands before the first `//` outside of literals. -/
def beforeLineComment (st : LiteralState) : List Char → List Char
  | [] => []
  | c :: s =>
    if st = outside ∧ ['/', '/'] <+: c :: s then [] else c :: (st.step c).beforeLineComment s

theorem beforeLineComment_outside {c : Char} {s : List Char} (hq : c ≠ '"')
    (hs : ¬['/', '/'] <+: c :: s) :
    outside.beforeLineComment (c :: s) = c :: outside.beforeLineComment s := by
  have hstep : outside.step c = outside := by simp only [step]
  rw [beforeLineComment, if_neg fun h => hs h.2, hstep]

theorem beforeLineComment_quote (s : List Char) :
    outside.beforeLineComment ('"' :: s) = '"' :: inside.beforeLineComment s := by
  have hs : ¬['/', '/'] <+: '"' :: s := by simp [List.cons_prefix_cons]
  rw [beforeLineComment, if_neg fun h => hs h.2]
  rfl

theorem beforeLineComment_inside {c : Char} (hq : c ≠ '"') (he : c ≠ '\\') (s : List Char) :
    inside.beforeLineComment (c :: s) = c :: inside.beforeLineComment s := by
  have hstep : inside.step c = inside := by simp only [step]
  rw [beforeLineComment, if_neg (by simp), hstep]

/-- A literal is passed over up to its closing quote, whatever follows it. -/
theorem beforeLineComment_of_split? {s raw rest : List Char}
    (h : Quoted.split? s = some (raw, rest)) (t : List Char) :
    inside.beforeLineComment (raw ++ t) = raw ++ outside.beforeLineComment t := by
  fun_induction Quoted.split? s generalizing raw rest with
  | case1 => cases h
  | case2 s =>
    cases h
    rfl
  | case3 c s ih =>
    obtain ⟨⟨raw', rest'⟩, hs, heq⟩ := Option.map_eq_some_iff.mp h
    cases heq
    show '\\' :: c :: inside.beforeLineComment (raw' ++ t) = _
    rw [ih hs]
    rfl
  | case4 c s hquote hescape ih =>
    obtain ⟨⟨raw', rest'⟩, hs, heq⟩ := Option.map_eq_some_iff.mp h
    cases heq
    have he : c ≠ '\\' := by
      rintro rfl
      -- a backslash at the end of the line has nothing to escape
      cases s with
      | nil => cases hs
      | cons d s => exact hescape d s rfl rfl
    rw [List.cons_append, beforeLineComment_inside hquote he, ih hs]
    rfl

/-- A literal without an end takes all of the line. -/
theorem beforeLineComment_of_split?_eq_none {s : List Char} (h : Quoted.split? s = none) :
    inside.beforeLineComment s = s := by
  fun_induction Quoted.split? s with
  | case1 => rfl
  | case2 s => cases h
  | case3 c s ih =>
    show '\\' :: c :: inside.beforeLineComment s = _
    rw [ih (Option.map_eq_none_iff.mp h)]
  | case4 c s hquote hescape ih =>
    by_cases he : c = '\\'
    · subst he
      cases s with
      | nil => rfl
      | cons d s => exact absurd rfl (hescape d s rfl)
    · rw [beforeLineComment_inside hquote he, ih (Option.map_eq_none_iff.mp h)]

end LiteralState

open LiteralState (outside)

theorem Comment.text_statement (s : List Char) :
    (statement s).text = outside.beforeLineComment (erase s).text := by
  fun_induction statement s with
  | case1 => rw [erase]; rfl
  | case2 r h =>
    rw [erase, h, LiteralState.beforeLineComment_quote,
      LiteralState.beforeLineComment_of_split?_eq_none h]
  | case3 r raw rest h ih =>
    rw [erase, h]
    show '"' :: raw ++ (statement rest).text =
      outside.beforeLineComment ('"' :: (raw ++ (erase rest).text))
    rw [LiteralState.beforeLineComment_quote, LiteralState.beforeLineComment_of_split? h, ih]
    rfl
  | case4 r => rw [erase]; rfl
  | case5 r h => rw [erase, h]; rfl
  | case6 r rest h ih =>
    rw [erase, h]
    show ' ' :: (statement rest).text = outside.beforeLineComment (' ' :: (erase rest).text)
    have hs : ¬['/', '/'] <+: ' ' :: (erase rest).text := by simp [List.cons_prefix_cons]
    rw [LiteralState.beforeLineComment_outside (by decide) hs, ih]
  | case7 c r hq hl hb ih =>
    have herase : (erase (c :: r)).text = c :: (erase r).text := by
      rw [erase]
      · rfl
      all_goals assumption
    -- no erased comment brings two slashes together
    have hs : ¬['/', '/'] <+: c :: (erase r).text := by
      intro h
      obtain ⟨hc, hr⟩ := List.cons_prefix_cons.mp h
      have hhead : (erase r).text.head? = r.head? :=
        head?_erase fun r' he => hl _ hc.symm he
      obtain ⟨t, ht⟩ := hr
      rw [← ht] at hhead
      obtain ⟨r', hr'⟩ := List.head?_eq_some_iff.mp hhead.symm
      exact hl r' hc.symm hr'
    rw [herase, LiteralState.beforeLineComment_outside hq hs, ← ih]
    rfl

end Text

namespace FilePass

/-- In a pass that is active, the text of a directive is what the line becomes as code up to its first
`//`, and the directive leaves a block comment open exactly if the code does. -/
theorem statement_eq_code {p : FilePass} (ha : p.isActive = true) (hc : p.openComment = none)
    (index : Nat) (line : Line) :
    (statement line).text = Text.LiteralState.outside.beforeLineComment (p.code index line).1 ∧
      (p.code index line).2.openComment =
        if (statement line).isOpen then some index else none := by
  have hcode : p.code index line = ((erase line).text,
      if (erase line).isOpen then { p with openComment := some index } else p) := by
    rw [code, ha, if_pos rfl]
  rw [hcode]
  refine ⟨Text.Comment.text_statement line, ?_⟩
  rw [Text.Comment.isOpen_statement]
  cases (erase line).isOpen with
  | true => rfl
  | false => exact hc

/-- Marks in literals and in comments, a literal without an end, and a letter of two bytes. -/
theorem statement_eq_code_marks :
    let line := "#é \"/* \\\" //\" /*//\"*/ // /* \"".toList
    start.isActive = true ∧ start.openComment = none ∧
      (start.code 0 line).1 = "#é \"/* \\\" //\"   // /* \"".toList ∧
      (statement line).text = "#é \"/* \\\" //\"   ".toList ∧
      (start.code 0 line).2.openComment = none := by
  intro line
  have hleft : (start.code 0 line).1 = "#é \"/* \\\" //\"   // /* \"".toList := by decide +kernel
  have hopen : (statement line).isOpen = false := by decide +kernel
  obtain ⟨htext, hcomment⟩ := statement_eq_code (p := start) rfl rfl 0 line
  refine ⟨rfl, rfl, hleft, ?_, ?_⟩
  · rw [htext, hleft]
    decide +kernel
  · rw [hcomment, hopen]
    rfl

end FilePass
end ScriptFront
