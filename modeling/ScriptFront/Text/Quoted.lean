import ScriptFront.Text

/-! String literals. A literal ends at the first quote that no backslash escapes, on its own line. -/
namespace ScriptFront.Text.Quoted

/-- A backslash before `n`, `r` or `t` makes a control character; before any other character it
stands for that character. -/
def unescape : Char → Char
  | 'n' => '\n'
  | 'r' => '\r'
  | 't' => '\t'
  | c => c

/-- Reads a literal whose opening quote is already taken: the text that it stands for, and the rest
after its closing quote. -/
def decode? : List Char → Option (List Char × List Char)
  | [] => none
  | '"' :: s => some ([], s)
  | '\\' :: c :: s => (decode? s).map fun (text, rest) => (unescape c :: text, rest)
  | c :: s => (decode? s).map fun (text, rest) => (c :: text, rest)

theorem suffix_of_decode? {s text rest : List Char} (h : decode? s = some (text, rest)) :
    rest <:+ s := by
  fun_induction decode? s generalizing text rest with
  | case1 => simp at h
  | case2 s =>
    simp only [Option.some.injEq, Prod.mk.injEq] at h
    exact h.2 ▸ List.suffix_cons _ _
  | case3 c s ih =>
    obtain ⟨⟨text, rest'⟩, hd, heq⟩ := Option.map_eq_some_iff.1 h
    simp only [Prod.mk.injEq] at heq
    exact heq.2 ▸ (ih hd).trans ((List.suffix_cons _ _).trans (List.suffix_cons _ _))
  | case4 c s _ _ ih =>
    obtain ⟨⟨text, rest'⟩, hd, heq⟩ := Option.map_eq_some_iff.1 h
    simp only [Prod.mk.injEq] at heq
    exact heq.2 ▸ (ih hd).trans (List.suffix_cons _ _)

/-- Splits a literal whose opening quote is already taken from the rest, as it is written and with
its closing quote. -/
def split? : List Char → Option (List Char × List Char)
  | [] => none
  | '"' :: s => some (['"'], s)
  | '\\' :: c :: s => (split? s).map fun (raw, rest) => ('\\' :: c :: raw, rest)
  | c :: s => (split? s).map fun (raw, rest) => (c :: raw, rest)

theorem append_of_split? {s raw rest : List Char} (h : split? s = some (raw, rest)) :
    raw ++ rest = s := by
  fun_induction split? s generalizing raw rest with
  | case1 => cases h
  | case2 s =>
    cases h
    rfl
  | case3 c s ih =>
    obtain ⟨⟨raw', rest'⟩, hs, heq⟩ := Option.map_eq_some_iff.1 h
    cases heq
    rw [← ih hs]
    rfl
  | case4 c s _ _ ih =>
    obtain ⟨⟨raw', rest'⟩, hs, heq⟩ := Option.map_eq_some_iff.1 h
    cases heq
    rw [← ih hs]
    rfl

/-- Writes a quote and a backslash after a backslash and every other character as it is. -/
def encode : List Char → List Char
  | [] => []
  | c :: s => if c = '"' ∨ c = '\\' then '\\' :: c :: encode s else c :: encode s

end ScriptFront.Text.Quoted
