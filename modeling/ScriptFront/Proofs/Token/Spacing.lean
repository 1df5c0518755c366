import ScriptFront.Proofs.Token.Parts

/-! A blank between two texts. No part of a line looks beyond a blank, but for strings and comments,
which may go on to the end of the line. So the tokens of a line can be taken in two halves. -/
namespace ScriptFront

namespace Text.Quoted

/-- What stands after the closing quote does not matter to a literal. -/
theorem decode?_append {s text rest : List Char} (h : decode? s = some (text, rest))
    (more : List Char) : decode? (s ++ more) = some (text, rest ++ more) := by
  fun_induction decode? s generalizing text rest with
  | case1 => cases h
  | case2 s =>
    cases h
    rfl
  | case3 c s ih =>
    obtain ⟨⟨text', rest'⟩, hs, heq⟩ := Option.map_eq_some_iff.mp h
    cases heq
    simp only [List.cons_append, decode?, ih hs, Option.map_some]
  | case4 c s hquote hescape ih =>
    obtain ⟨⟨text', rest'⟩, hs, heq⟩ := Option.map_eq_some_iff.mp h
    cases heq
    -- a backslash at the end of the text would have no literal at all
    have hne : c = '\\' → s = [] → False := by
      rintro rfl rfl
      cases hs
    rw [List.cons_append, decode?, ih hs]
    · rfl
    · exact hquote
    · intro d s' hc hs'
      obtain _ | ⟨d', s''⟩ := s
      · exact hne hc rfl
      · exact hescape d' s'' hc rfl

end Text.Quoted

/-- A run of characters ends at a blank. -/
theorem takeWhile_append_blank {p : Char → Bool} (hp : p ' ' = false) (s more : List Char) :
    (s ++ ' ' :: more).takeWhile p = s.takeWhile p := by
  induction s with
  | nil => simp [hp]
  | cons c s ih => rw [List.cons_append, List.takeWhile_cons, List.takeWhile_cons, ih]

theorem dropWhile_append_blank {p : Char → Bool} (hp : p ' ' = false) (s more : List Char) :
    (s ++ ' ' :: more).dropWhile p = s.dropWhile p ++ ' ' :: more := by
  induction s with
  | nil => simp [hp]
  | cons c s ih =>
    rw [List.cons_append, List.dropWhile_cons, List.dropWhile_cons, ih]
    split <;> rfl

namespace Number

theorem spanIdentifier_append_blank (s more : List Char) :
    spanIdentifier (s ++ ' ' :: more) =
      ((spanIdentifier s).1, (spanIdentifier s).2 ++ ' ' :: more) := by
  have hblank : CharClass.isIdentifier ' ' = false := by decide
  rw [spanIdentifier, takeWhile_append_blank hblank, dropWhile_append_blank hblank, spanIdentifier]

/-- After an exponent mark a literal goes on with a minus sign, but with no blank. -/
theorem scan_append_blank (s more : List Char) :
    scan (s ++ ' ' :: more) = ⟨(scan s).raw, (scan s).value, (scan s).rest ++ ' ' :: more⟩ := by
  unfold scan
  rw [spanIdentifier_append_blank]
  rcases spanIdentifier s with ⟨raw, rest⟩
  dsimp only
  split
  · rfl
  · rfl
  · rfl
  · rcases rest with _ | ⟨d, rest⟩
    · rfl
    · by_cases hd : d = '-'
      · subst hd
        simp only [List.cons_append, spanIdentifier_append_blank]
        split <;> rfl
      · simp only [List.cons_append]
        split
        · next heq => exact absurd (List.cons.inj heq).1 hd
        · split
          · next heq => exact absurd (List.cons.inj heq).1 hd
          · rfl

end Number

namespace Operator

theorem longest?_append_blank (s more : List Char) :
    longest? (s ++ ' ' :: more) =
      (longest? s).map fun (op, rest) => (op, rest ++ ' ' :: more) := by
  have hblank : CharClass.isOperator ' ' = false := by decide
  rw [longest?, longest?, takeWhile_append_blank hblank]
  rcases hfound : find? (bytes (s.takeWhile CharClass.isOperator)) with _ | found
  · rfl
  have hlen : found.len ≤ s.length := by
    refine (len_le_of_find? hfound).trans ?_
    rw [bytes, List.length_map]
    exact (List.takeWhile_prefix _).length_le
  simp only [Option.bind_eq_bind, Option.bind_some, List.drop_append_of_le_length hlen]
  rcases all[found.index]? with _ | op <;> rfl

end Operator

namespace Lexeme

/-- Whether the part at the start of a text takes all of the text, whatever comes after it: a string
that is not closed, or a comment. -/
def takesLine : List Char → Bool
  | '"' :: s => (Text.Quoted.decode? s).isNone
  | '/' :: '/' :: _ => true
  | _ => false

/-- No other part is changed by a blank and what comes after it. -/
theorem next_append_blank {c : Char} {s : List Char} (h : takesLine (c :: s) = false)
    (more : List Char) :
    next c (s ++ ' ' :: more) =
      ⟨(next c s).raw, (next c s).lexeme, (next c s).rest ++ ' ' :: more⟩ := by
  by_cases hop : CharClass.isOperator c = true
  · have hs : ∀ body, c = '/' → s ≠ '/' :: body := by
      rintro body rfl rfl
      cases h
    have hs' : ∀ body, c = '/' → s ++ ' ' :: more ≠ '/' :: body := by
      rintro body hc hbody
      rcases s with _ | ⟨d, s⟩
      · cases hbody
      · cases hbody
        exact hs s hc rfl
    have hblank : CharClass.isOperator ' ' = false := by decide
    rw [next_of_operator hop hs, next_of_operator hop hs', ← List.cons_append,
      Operator.longest?_append_blank, takeWhile_append_blank hblank, dropWhile_append_blank hblank]
    rcases Operator.longest? (c :: s) with _ | ⟨op, rest⟩ <;> rfl
  · unfold next
    split
    · rfl
    split
    · rfl
    split
    · next hc =>
      subst hc
      rcases hs : Text.Quoted.decode? s with _ | ⟨text, rest⟩
      · rw [takesLine, hs] at h
        cases h
      · obtain ⟨raw, rfl⟩ := Text.Quoted.suffix_of_decode? hs
        rw [Text.Quoted.decode?_append hs]
        simp
    split
    · rw [Number.spanIdentifier_append_blank]
      rcases Number.spanIdentifier s with ⟨_ | ⟨d, name⟩, rest⟩ <;> rfl
    split
    · rw [← List.cons_append, Number.scan_append_blank]
    split
    · rw [Number.spanIdentifier_append_blank]
    · rfl

/-- The texts that the parts of a line begin, each with the rest of the line. -/
def starts (s : List Char) : List (List Char) :=
  match s with
  | [] => []
  | c :: s => (c :: s) :: starts (next c s).rest
termination_by s.length
decreasing_by exact length_rest_next c s

theorem lexemes_append_blank (offset : Nat) {a : List Char}
    (h : ∀ s ∈ starts a, takesLine s = false) (b : List Char) :
    lexemes offset (a ++ ' ' :: b) =
      lexemes offset a ++ lexemes (offset + (Text.byteSize a + 1)) b := by
  fun_induction starts a generalizing offset with
  | case1 =>
    rw [List.nil_append, lexemes, lexemes]
    rfl
  | case2 c a ih =>
    obtain ⟨hfirst, hrest⟩ := List.forall_mem_cons.mp h
    have hsize := congrArg Text.byteSize (raw_append_rest_next c a)
    rw [Text.byteSize_append] at hsize
    rw [List.cons_append, lexemes, lexemes, next_append_blank hfirst, ih _ hrest, ← hsize]
    dsimp only
    rw [Nat.add_assoc, Nat.add_assoc]
    cases (next c a).lexeme <;> rfl

end Lexeme

/-- A line in two halves with a blank between them: the second half is tokenized as a line of its
own, with the names that the first half leaves, unless the first half has a string that is not
closed or a comment. -/
theorem tokenize_append_blank {hash : NameHash} (names : Interner hash) {a : Line}
    (h : ∀ s ∈ Lexeme.starts a, Lexeme.takesLine s = false) (b : Line) :
    tokenize names (a ++ ' ' :: b) =
      (tokenize names a).append
        ((tokenize (tokenize names a).names b).shift (Text.byteSize a + 1)) := by
  have hlexemes := Lexeme.lexemes_append_blank 0 h b
  have hshift := Lexeme.lexemes_shift (Text.byteSize a + 1) 0 b
  rw [Nat.zero_add] at hlexemes
  rw [Nat.add_zero] at hshift
  rw [tokenize, hlexemes, hshift, Lexeme.resolve_append, Lexeme.resolve_shift]
  rfl

/-- No number goes on behind the blank, though its exponent asks for a sign. -/
theorem tokenize_append_blank_exponent :
    let names : Interner .standard := .new
    let a := "é \"//\" 1e".toList
    let b := "-3 @ \"open".toList
    (∀ s ∈ Lexeme.starts a, Lexeme.takesLine s = false) ∧
      (tokenize names (a ++ ' ' :: b)).tokens =
        [.stringLiteral "//", .operator .sub, .constant (.integer 3)] ∧
      (tokenize names (a ++ ' ' :: b)).errors =
        [⟨.invalidNumber "1e", 8⟩, ⟨.invalidLabel, 14⟩, ⟨.unterminatedString, 16⟩] := by
  intro names a b
  have h : ∀ s ∈ Lexeme.starts a, Lexeme.takesLine s = false := by decide +kernel
  rw [tokenize_append_blank names h b]
  exact ⟨h, by decide +kernel, by decide +kernel⟩

end ScriptFront
