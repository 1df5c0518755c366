import ScriptFront.Proofs.Token.Refusal
import ScriptFront.Proofs.Token.RoundTrip

/-! What the tokenizer takes for a name. A text of the characters of names is an identifier only if
it begins as a word does and is no word of the language. -/
namespace ScriptFront.Lexeme

/-- The text is one identifier in a line. -/
def IsName (name : String) : Prop :=
  Token.isWord name.toList = true ∧ ofWord name = identifier name

instance (name : String) : Decidable (IsName name) := inferInstanceAs (Decidable (_ ∧ _))

theorem IsName.lexemes_eq {name : String} (h : IsName name) (offset : Nat) :
    lexemes offset name.toList = [(offset, identifier name)] :=
  (Token.readsBack_of_isWord (t := .identifier name) h.1 h.2).lexemes_display offset

theorem raw_of_identifier {c : Char} {s : List Char} {name : String}
    (hx : (next c s).lexeme = some (identifier name)) : (next c s).raw = name.toList := by
  have hnext := isNext_next c s
  generalize next c s = step at hx hnext
  cases hnext with
  | word =>
    rcases ofWord_cases (String.ofList (c :: (Number.spanIdentifier s).1)) with
      ⟨id, -, hw⟩ | ⟨word, hw⟩ | hw | ⟨value, hw⟩ | hw <;> rw [hw] at hx <;> cases hx
    exact String.toList_ofList.symm
  | number =>
    rcases hvalue : (Number.scan (c :: s)).value with (_ | _) | value <;>
      simp [hvalue, ofNumber] at hx
  | comment body =>
    obtain ⟨text, htext⟩ := exists_pragma_of_ofLineComment? hx
    cases htext
  | _ => cases hx

/-- An identifier is not longer than the text that it is in. -/
theorem length_le_of_identifier {offset : Nat} {s : List Char} {o : Nat} {name : String}
    (hp : (o, identifier name) ∈ lexemes offset s) : name.toList.length ≤ s.length := by
  fun_induction lexemes offset s with
  | case1 => cases hp
  | case2 offset c s step rest x hx ih =>
    rcases List.mem_cons.mp hp with heq | hp
    · cases heq
      have hlength := congrArg List.length (raw_append_rest_next c s)
      rw [List.length_append, raw_of_identifier hx] at hlength
      omega
    · exact Nat.le_trans (ih hp) (Nat.le_of_lt (length_rest_next c s))
  | case3 offset c s step rest hx ih =>
    exact Nat.le_trans (ih hp) (Nat.le_of_lt (length_rest_next c s))

/-- A text with the characters of a name that is none is not read as the identifier that it looks
like: a word of the language is read as such, and a dot at the start is passed over. -/
theorem not_mem_lexemes {name : String} (h : ¬IsName name) {c : Char} {s : List Char}
    (hname : name.toList = c :: s) (hall : ∀ d ∈ c :: s, CharClass.isIdentifier d = true)
    (hdigit : CharClass.isDigit c = false) (o : Nat) :
    (o, identifier name) ∉ lexemes 0 name.toList := by
  obtain ⟨hc, hs⟩ := List.forall_mem_cons.mp hall
  intro hmem
  rw [hname, lexemes] at hmem
  by_cases hword : (CharClass.isLetter c || c == '_') = true
  · have hisWord : Token.isWord name.toList = true := by
      rw [hname, Token.isWord, hword, Bool.true_and, List.all_eq_true]
      exact hs
    have hnot : ofWord name ≠ identifier name := fun hw => h ⟨hisWord, hw⟩
    have hself : String.ofList (c :: s) = name := by rw [← hname, String.ofList_toList]
    rw [next_of_word hword, Number.spanIdentifier_of_all hs, hself] at hmem
    dsimp only at hmem
    rw [lexemes, List.mem_singleton] at hmem
    exact hnot (congrArg Prod.snd hmem).symm
  · have hdot : c = '.' := by
      rw [Bool.not_eq_true, Bool.or_eq_false_iff] at hword
      have hkind : (c.isAlpha || c.isDigit || c == '_' || c == '.') = true := hc
      rw [show c.isAlpha = false from hword.1, show c.isDigit = false from hdigit, hword.2] at hkind
      exact beq_iff_eq.mp hkind
    subst hdot
    change (o, identifier name) ∈ lexemes (0 + Text.byteSize ['.']) s at hmem
    have hlength := length_le_of_identifier hmem
    rw [hname, List.length_cons] at hlength
    omega

theorem exists_of_mem_tokenize {hash : NameHash} {names : Interner hash} {line : Line}
    {name : String} (h : .identifier name ∈ (tokenize names line).tokens) :
    ∃ o, (o, identifier name) ∈ lexemes 0 line := by
  obtain ⟨⟨o, x⟩, hp, hx⟩ := exists_lexeme_of_mem_tokenize names line h
  obtain ⟨c, s, hnext⟩ := exists_next_of_mem_lexemes hp
  have hself : x = identifier name := (lexeme_of_next hnext hx).symm
  exact ⟨o, hself ▸ hp⟩

/-- A name that the table does not refuse is its only token. -/
theorem IsName.tokenize_eq {hash : NameHash} {names : Interner hash} {name : String}
    (h : IsName name) (hn : names.refuses name = false) :
    (tokenize names name.toList).tokens = [.identifier name] ∧
      (tokenize names name.toList).errors = [] := by
  rw [tokenize, h.lexemes_eq, resolve, make, enter]
  rcases names.intern_cases name with ⟨hrefused, -⟩ | ⟨-, entered, names', hrun, -⟩
  · rw [hn] at hrefused
    cases hrefused
  · rw [hrun]
    exact ⟨rfl, rfl⟩

end ScriptFront.Lexeme
