import ScriptFront.Diagnostic.Code
import ScriptFront.Operator.Longest
import ScriptFront.Text.Class
import ScriptFront.Text.Quoted
import ScriptFront.Token

/-! The parts of a line from which tokens are made. A bad part does not end the line: it becomes an
error, and the next part begins behind it. -/
namespace ScriptFront

/-- Why a part of a line is no token. -/
inductive LexCause
  | unterminatedString
  | invalidNumber (text : String)
  | integerOverflow (text : String)
  | unknownOperator (text : String)
  | reservedWord (word : String)
  | invalidLabel
  | nameCollision (name : String)
  deriving DecidableEq, Repr

namespace LexCause

def code : LexCause → ErrorCode
  | unterminatedString => .unterminatedString
  | invalidNumber _ => .invalidNumber
  | integerOverflow _ => .integerOverflow
  | unknownOperator _ => .unknownOperator
  | reservedWord _ => .reservedWord
  | invalidLabel => .invalidLabel
  | nameCollision _ => .nameCollision

def message : LexCause → String
  | unterminatedString => "string literal exceeds line"
  | invalidNumber text => s!"invalid number `{text}`"
  | integerOverflow text => s!"integer literal `{text}` does not fit into 64 bits"
  | unknownOperator text => s!"operator not recognized: `{text}`"
  | reservedWord word =>
    s!"reserved keyword '{word}' cannot be used as an identifier, please rename"
  | invalidLabel => "expected a label name after '@'"
  | nameCollision name => s!"`{name}` has the same hash as a different name, please rename"

end LexCause

/-- A part of a line. The text of a literal, a label or an identifier has still to be entered in
the table of names. -/
inductive Lexeme
  | token (t : Token)
  | stringLiteral (text : String)
  | label (name : String)
  | identifier (name : String)
  | error (cause : LexCause)
  deriving DecidableEq, Repr

/-- The part at the start of a text, if there is one, as it is written, and the rest. -/
structure LexStep where
  raw : List Char
  lexeme : Option Lexeme
  rest : List Char

namespace Lexeme

def ofWord (w : String) : Lexeme :=
  match TypeId.ofWord? w with
  | some id => token (.typeName id)
  | none =>
    match Keyword.ofWord? w with
    | some word => token (.keyword word)
    | none =>
      if reservedWords.contains w then error (.reservedWord w)
      else if w = "true" then token (.constant (.integer 1))
      else if w = "false" then token (.constant (.integer 0))
      else identifier w

def ofNumber (raw : List Char) : Except NumberError Number → Lexeme
  | .ok value => token (.constant value)
  | .error .invalidDigit => error (.invalidNumber (String.ofList raw))
  | .error .overflow => error (.integerOverflow (String.ofList raw))

/-- A comment `//#` with some text is a pragma. -/
def ofLineComment? : List Char → Option Lexeme
  | '#' :: s =>
    match Text.trimEnd (s.dropWhile CharClass.isBlank) with
    | [] => none
    | text => some (token (.pragma (String.ofList text)))
  | _ => none

/-- The next part of the text `c :: s`. -/
def next (c : Char) (s : List Char) : LexStep :=
  if c = '\x7b' then ⟨[c], some (token (.keyword .blockBegin)), s⟩
  else if c = '\x7d' then ⟨[c], some (token (.keyword .blockEnd)), s⟩
  else if c = '"' then
    match Text.Quoted.decode? s with
    | some (text, rest) =>
      ⟨c :: s.take (s.length - rest.length), some (stringLiteral (String.ofList text)), rest⟩
    | none => ⟨c :: s, some (error .unterminatedString), []⟩
  else if c = '@' then
    match Number.spanIdentifier s with
    | ([], rest) => ⟨[c], some (error .invalidLabel), rest⟩
    | (name, rest) => ⟨c :: name, some (label (String.ofList name)), rest⟩
  else if CharClass.isDigit c then
    let scan := Number.scan (c :: s)
    ⟨scan.raw, some (ofNumber scan.raw scan.value), scan.rest⟩
  else if CharClass.isLetter c || c == '_' then
    let (word, rest) := Number.spanIdentifier s
    ⟨c :: word, some (ofWord (String.ofList (c :: word))), rest⟩
  else if CharClass.isOperator c then
    match c, s with
    | '/', '/' :: body => ⟨c :: s, ofLineComment? body, []⟩
    | c, s =>
      match Operator.longest? (c :: s) with
      | some (op, rest) =>
        ⟨(c :: s).take ((c :: s).length - rest.length), some (token (.operator op)), rest⟩
      | none =>
        let run := s.takeWhile CharClass.isOperator
        ⟨c :: run, some (error (.unknownOperator (String.ofList (c :: run)))),
          s.dropWhile CharClass.isOperator⟩
  else ⟨[c], none, s⟩

/-- Nothing of the text is lost. -/
theorem raw_append_rest_next (c : Char) (s : List Char) :
    (next c s).raw ++ (next c s).rest = c :: s := by
  unfold next
  split
  · rfl
  split
  · rfl
  split
  · split
    · rename_i text rest h
      obtain ⟨raw, rfl⟩ := Text.Quoted.suffix_of_decode? h
      simp
    · simp
  split
  · have hspan : (Number.spanIdentifier s).1 ++ (Number.spanIdentifier s).2 = s :=
      List.takeWhile_append_dropWhile
    split
    · next h =>
      rw [h] at hspan
      simp only [List.nil_append] at hspan
      rw [hspan]
      rfl
    · next h =>
      rw [h] at hspan
      exact congrArg (c :: ·) hspan
  split
  · exact Number.raw_append_rest_scan (c :: s)
  split
  · simp [Number.spanIdentifier]
  split
  · split
    · simp
    · split
      · rename_i h
        obtain ⟨raw, heq⟩ := Operator.suffix_of_longest? h
        simp [← heq]
      · simp
  · rfl

theorem raw_next_ne_nil (c : Char) (s : List Char) : (next c s).raw ≠ [] := by
  unfold next
  split
  · simp
  split
  · simp
  split
  · split <;> simp
  split
  · split <;> simp
  split
  · rename_i hd
    obtain ⟨more, h⟩ := Number.takeWhile_append_scan (c :: s)
    simp [h, CharClass.isIdentifier_of_isDigit hd]
  split
  · simp
  split
  · split
    · simp
    · split
      · rename_i h
        have hlength := Operator.length_lt_of_longest? h
        simp only [ne_eq, List.take_eq_nil_iff, reduceCtorEq, or_false]
        omega
      · simp
  · simp

theorem length_rest_next (c : Char) (s : List Char) :
    (next c s).rest.length < (c :: s).length := by
  have h := congrArg List.length (raw_append_rest_next c s)
  have h' := List.length_pos_iff.2 (raw_next_ne_nil c s)
  simp only [List.length_append] at h
  omega

end Lexeme

/-- The parts of a line, each with the number of bytes before it. -/
def lexemes (offset : Nat) (s : List Char) : List (Nat × Lexeme) :=
  match s with
  | [] => []
  | c :: s =>
    let step := Lexeme.next c s
    let rest := lexemes (offset + Text.byteSize step.raw) step.rest
    match step.lexeme with
    | some lexeme => (offset, lexeme) :: rest
    | none => rest
termination_by s.length
decreasing_by exact Lexeme.length_rest_next c s

end ScriptFront
