import ScriptFront.Proofs.Operator.Longest
import ScriptFront.Token.Lexer
import Mathlib.Data.List.TakeWhile

/-! The parts of a line one by one: what begins with a character of a given kind, and how the parts
of two texts are put together. -/
namespace ScriptFront

namespace LexError

/-- The same fault in a line with so many more bytes in front. -/
def shift (bytes : Nat) (e : LexError) : LexError := { e with offset := bytes + e.offset }

end LexError

namespace LexResult

variable {hash : NameHash}

/-- The tokens and faults of a line and of what was read after it. -/
def append (r next : LexResult hash) : LexResult hash :=
  ⟨r.tokens ++ next.tokens, r.errors ++ next.errors, next.names⟩

/-- The result for a line with so many more bytes in front. -/
def shift (bytes : Nat) (r : LexResult hash) : LexResult hash :=
  { r with errors := r.errors.map (·.shift bytes) }

end LexResult

namespace Lexeme

variable {c : Char} {hash : NameHash}

theorem separate_of_operator (h : CharClass.isOperator c = true) :
    c ≠ '\x7b' ∧ c ≠ '\x7d' ∧ c ≠ '"' ∧ c ≠ '@' ∧ ¬CharClass.isDigit c = true ∧
      ¬(CharClass.isLetter c || c == '_') = true := by
  have hall : "=+-*/%<>&|^!~?:;,()[]".toList.all (fun d => d != '\x7b' && d != '\x7d' &&
      d != '"' && d != '@' && !CharClass.isDigit d && !(CharClass.isLetter d || d == '_')) := by
    decide
  have hc := List.all_eq_true.mp hall c (List.contains_iff_mem.mp h)
  simpa only [Bool.and_eq_true, bne_iff_ne, Bool.not_eq_true', and_assoc, Bool.not_eq_true] using hc

theorem separate_of_digit (h : CharClass.isDigit c = true) :
    c ≠ '\x7b' ∧ c ≠ '\x7d' ∧ c ≠ '"' ∧ c ≠ '@' := by
  refine ⟨?_, ?_, ?_, ?_⟩ <;> (rintro rfl; cases h)

theorem not_isDigit_of_isLetter (h : CharClass.isLetter c = true) :
    ¬CharClass.isDigit c = true := by
  intro hd
  have hletter : (65 ≤ c.toNat ∧ c.toNat ≤ 90) ∨ (97 ≤ c.toNat ∧ c.toNat ≤ 122) := by
    rcases Bool.or_eq_true_iff.mp h with h | h
    · exact .inl (of_decide_eq_true h)
    · obtain ⟨hlo, hhi⟩ := Bool.and_eq_true_iff.mp h
      exact .inr ⟨of_decide_eq_true hlo, of_decide_eq_true hhi⟩
  have hdigit : 48 ≤ c.toNat ∧ c.toNat ≤ 57 := by
    obtain ⟨hlo, hhi⟩ := Bool.and_eq_true_iff.mp hd
    exact ⟨of_decide_eq_true hlo, of_decide_eq_true hhi⟩
  omega

theorem separate_of_word (h : (CharClass.isLetter c || c == '_') = true) :
    c ≠ '\x7b' ∧ c ≠ '\x7d' ∧ c ≠ '"' ∧ c ≠ '@' ∧ ¬CharClass.isDigit c = true := by
  rcases Bool.or_eq_true_iff.mp h with h | h
  · refine ⟨?_, ?_, ?_, ?_, not_isDigit_of_isLetter h⟩ <;> (rintro rfl; cases h)
  · rw [beq_iff_eq.mp h]
    decide

theorem next_of_digit (h : CharClass.isDigit c = true) (s : List Char) :
    next c s = ⟨(Number.scan (c :: s)).raw,
      some (ofNumber (Number.scan (c :: s)).raw (Number.scan (c :: s)).value),
      (Number.scan (c :: s)).rest⟩ := by
  obtain ⟨h₁, h₂, h₃, h₄⟩ := separate_of_digit h
  unfold next
  rw [if_neg h₁, if_neg h₂, if_neg h₃, if_neg h₄, if_pos h]

theorem next_of_word (h : (CharClass.isLetter c || c == '_') = true) (s : List Char) :
    next c s = ⟨c :: (Number.spanIdentifier s).1,
      some (ofWord (String.ofList (c :: (Number.spanIdentifier s).1))),
      (Number.spanIdentifier s).2⟩ := by
  obtain ⟨h₁, h₂, h₃, h₄, h₅⟩ := separate_of_word h
  unfold next
  rw [if_neg h₁, if_neg h₂, if_neg h₃, if_neg h₄, if_neg h₅, if_pos h]

theorem next_comment (body : List Char) :
    next '/' ('/' :: body) = ⟨'/' :: '/' :: body, ofLineComment? body, []⟩ := rfl

theorem next_of_operator (h : CharClass.isOperator c = true) {s : List Char}
    (hs : ∀ body, c = '/' → s ≠ '/' :: body) :
    next c s =
      match Operator.longest? (c :: s) with
      | some (op, rest) => ⟨op.spelling.toList, some (token (.operator op)), rest⟩
      | none =>
        let run := s.takeWhile CharClass.isOperator
        ⟨c :: run, some (error (.unknownOperator (String.ofList (c :: run)))),
          s.dropWhile CharClass.isOperator⟩ := by
  obtain ⟨h₁, h₂, h₃, h₄, h₅, h₆⟩ := separate_of_operator h
  unfold next
  rw [if_neg h₁, if_neg h₂, if_neg h₃, if_neg h₄, if_neg h₅, if_neg h₆, if_pos h]
  split
  · next body => exact absurd rfl (hs body rfl)
  · rcases hlongest : Operator.longest? (c :: s) with _ | ⟨op, rest⟩
    · rfl
    · have heq := Operator.eq_append_of_longest? hlongest
      have hraw : (c :: s).take ((c :: s).length - rest.length) = op.spelling.toList := by
        rw [heq, List.length_append, Nat.add_sub_cancel_right, List.take_left]
      dsimp only
      rw [hraw]

/-- What a word may be. Only an identifier is entered in the table of names. -/
theorem ofWord_cases (w : String) :
    (∃ id, TypeId.ofWord? w = some id ∧ ofWord w = token (.typeName id)) ∨
      (∃ word, ofWord w = token (.keyword word)) ∨ ofWord w = error (.reservedWord w) ∨
      (∃ value, ofWord w = token (.constant (.integer value))) ∨ ofWord w = identifier w := by
  unfold ofWord
  split
  · next id hid => exact .inl ⟨id, hid, rfl⟩
  split
  · next word _ => exact .inr (.inl ⟨word, rfl⟩)
  split_ifs
  · exact .inr (.inr (.inl rfl))
  · exact .inr (.inr (.inr (.inl ⟨1, rfl⟩)))
  · exact .inr (.inr (.inr (.inl ⟨0, rfl⟩)))
  · exact .inr (.inr (.inr (.inr rfl)))

theorem exists_pragma_of_ofLineComment? {body : List Char} {x : Lexeme}
    (hx : ofLineComment? body = some x) : ∃ text, x = token (.pragma text) := by
  unfold ofLineComment? at hx
  split at hx
  · split at hx
    · cases hx
    · cases hx
      exact ⟨_, rfl⟩
  · cases hx

/-- What the part at the start of a text may be. -/
inductive IsNext : Char → List Char → LexStep → Prop
  | blockBegin (s : List Char) : IsNext '\x7b' s ⟨['\x7b'], some (token (.keyword .blockBegin)), s⟩
  | blockEnd (s : List Char) : IsNext '\x7d' s ⟨['\x7d'], some (token (.keyword .blockEnd)), s⟩
  | literal {s text rest : List Char} (h : Text.Quoted.decode? s = some (text, rest)) :
      IsNext '"' s
        ⟨'"' :: s.take (s.length - rest.length), some (stringLiteral (String.ofList text)), rest⟩
  | openLiteral {s : List Char} (h : Text.Quoted.decode? s = none) :
      IsNext '"' s ⟨'"' :: s, some (error .unterminatedString), []⟩
  | noLabel {s rest : List Char} (h : Number.spanIdentifier s = ([], rest)) :
      IsNext '@' s ⟨['@'], some (error .invalidLabel), rest⟩
  | label {s name rest : List Char} (h : Number.spanIdentifier s = (name, rest)) (hne : name ≠ []) :
      IsNext '@' s ⟨'@' :: name, some (label (String.ofList name)), rest⟩
  | number {c : Char} (h : CharClass.isDigit c = true) (s : List Char) :
      IsNext c s ⟨(Number.scan (c :: s)).raw,
        some (ofNumber (Number.scan (c :: s)).raw (Number.scan (c :: s)).value),
        (Number.scan (c :: s)).rest⟩
  | word {c : Char} (h : (CharClass.isLetter c || c == '_') = true) (s : List Char) :
      IsNext c s ⟨c :: (Number.spanIdentifier s).1,
        some (ofWord (String.ofList (c :: (Number.spanIdentifier s).1))),
        (Number.spanIdentifier s).2⟩
  | comment (body : List Char) :
      IsNext '/' ('/' :: body) ⟨'/' :: '/' :: body, ofLineComment? body, []⟩
  | operator {c : Char} {s rest : List Char} {op : Operator} (hc : CharClass.isOperator c = true)
      (hs : ∀ body, c = '/' → s ≠ '/' :: body) (h : Operator.longest? (c :: s) = some (op, rest)) :
      IsNext c s ⟨op.spelling.toList, some (token (.operator op)), rest⟩
  | noOperator {c : Char} {s : List Char} (hc : CharClass.isOperator c = true)
      (hs : ∀ body, c = '/' → s ≠ '/' :: body) (h : Operator.longest? (c :: s) = none) :
      IsNext c s ⟨c :: s.takeWhile CharClass.isOperator,
        some (error (.unknownOperator (String.ofList (c :: s.takeWhile CharClass.isOperator)))),
        s.dropWhile CharClass.isOperator⟩
  | nothing {c : Char} (hc : CharClass.isOperator c = false) (s : List Char) :
      IsNext c s ⟨[c], none, s⟩

theorem isNext_next (c : Char) (s : List Char) : IsNext c s (next c s) := by
  by_cases hop : CharClass.isOperator c = true
  · by_cases hcomment : c = '/' ∧ ∃ body, s = '/' :: body
    · obtain ⟨rfl, body, rfl⟩ := hcomment
      exact .comment body
    · have hs : ∀ body, c = '/' → s ≠ '/' :: body := fun body hc hs => hcomment ⟨hc, body, hs⟩
      rw [next_of_operator hop hs]
      rcases h : Operator.longest? (c :: s) with _ | ⟨op, rest⟩
      · exact .noOperator hop hs h
      · exact .operator hop hs h
  · unfold next
    split
    · next hc => exact hc ▸ .blockBegin s
    split
    · next hc => exact hc ▸ .blockEnd s
    split
    · next hc =>
      subst hc
      rcases h : Text.Quoted.decode? s with _ | ⟨text, rest⟩
      · exact .openLiteral h
      · exact .literal h
    split
    · next hc =>
      subst hc
      rcases h : Number.spanIdentifier s with ⟨_ | ⟨d, name⟩, rest⟩
      · exact .noLabel h
      · exact .label h (List.cons_ne_nil d name)
    split
    · next hc => exact .number hc s
    split
    · next hc => exact .word hc s
    · exact .nothing (Bool.eq_false_iff.mpr hop) s

theorem exists_next_of_mem_lexemes {offset : Nat} {s : List Char} {p : Nat × Lexeme}
    (hp : p ∈ lexemes offset s) : ∃ c r, (next c r).lexeme = some p.2 := by
  fun_induction lexemes offset s with
  | case1 => cases hp
  | case2 offset c s step rest x hx ih =>
    rcases List.mem_cons.mp hp with rfl | hp
    · exact ⟨c, s, hx⟩
    · exact ih hp
  | case3 offset c s step rest hx ih => exact ih hp

/-- What a line is made of does not depend on the bytes before it. -/
theorem lexemes_shift (bytes offset : Nat) (s : List Char) :
    lexemes (bytes + offset) s = (lexemes offset s).map fun (o, x) => (bytes + o, x) := by
  induction hlength : s.length using Nat.strong_induction_on generalizing offset s with
  | _ n ih =>
    subst hlength
    rcases s with _ | ⟨c, s⟩
    · rw [lexemes, lexemes]
      rfl
    · have hrest := ih _ (length_rest_next c s) (offset + Text.byteSize (next c s).raw) _ rfl
      rw [lexemes, lexemes, Nat.add_assoc, hrest]
      cases (next c s).lexeme <;> rfl

theorem resolve_append (names : Interner hash) (xs ys : List (Nat × Lexeme)) :
    resolve names (xs ++ ys) = (resolve names xs).append (resolve (resolve names xs).names ys) := by
  induction xs generalizing names with
  | nil => rfl
  | cons x xs ih =>
    obtain ⟨offset, x⟩ := x
    rw [List.cons_append, resolve, resolve]
    rcases x.make names offset with ⟨e | t, names'⟩
    · exact congrArg (·.addError e) (ih names')
    · exact congrArg (·.addToken t) (ih names')

theorem make_shift (bytes offset : Nat) (names : Interner hash) (x : Lexeme) :
    x.make names (bytes + offset) =
      ((x.make names offset).1.mapError (·.shift bytes), (x.make names offset).2) := by
  cases x with
  | token | error => rfl
  | stringLiteral text | label text | identifier text =>
    rw [make, make, enter, enter]
    rcases names.intern text with _ | ⟨_, names'⟩
    · rfl
    · rfl

theorem resolve_shift (bytes : Nat) (names : Interner hash) (xs : List (Nat × Lexeme)) :
    resolve names (xs.map fun (o, x) => (bytes + o, x)) = (resolve names xs).shift bytes := by
  induction xs generalizing names with
  | nil => rfl
  | cons x xs ih =>
    obtain ⟨offset, x⟩ := x
    rw [List.map_cons, resolve, resolve, make_shift]
    rcases x.make names offset with ⟨e | t, names'⟩
    · exact congrArg (·.addError (e.shift bytes)) (ih names')
    · exact congrArg (·.addToken t) (ih names')

end Lexeme
end ScriptFront
