import ScriptFront.Proofs.Number.Numeral
import ScriptFront.Proofs.Text.Quoted
import ScriptFront.Proofs.Token.Spacing
import Mathlib.Data.List.DropRight

/-! Tokens as text. The text of a token is one part of a line again, and it is the part that the
token was read from, up to its spelling. -/
namespace ScriptFront

namespace Number

theorem spanIdentifier_of_all {s : List Char} (hs : ∀ c ∈ s, CharClass.isIdentifier c = true) :
    spanIdentifier s = (s, []) := by
  rw [spanIdentifier, List.takeWhile_eq_self_iff.mpr hs, List.dropWhile_eq_nil_iff.mpr hs]

/-- An integer literal that ends a line. -/
theorem scan_of_integer {s : List Char} (hs : ∀ c ∈ s, CharClass.isIdentifier c = true)
    {value : UInt64} (hvalue : Integer.parse s = .ok value) :
    scan s = ⟨s, .ok (integer value), []⟩ := by
  unfold scan
  rw [spanIdentifier_of_all hs]
  dsimp only
  rw [hvalue]
  split
  · rfl
  · next h =>
    cases h
    rfl
  · next h => cases h
  · next h => cases h

end Number

namespace Text

/-- Printable ASCII, and the control characters that have a letter as their escape. -/
def isSimple (c : Char) : Bool :=
  (0x20 ≤ c.toNat && c.toNat < 0x7F) || c == '\n' || c == '\r' || c == '\t'

theorem writes_escape {c : Char} (h : isSimple c = true) {s e : List Char}
    (he : Quoted.Writes s e) : Quoted.Writes (c :: s) (Literal.escape c ++ e) := by
  by_cases hc : c ∈ ['\n', '\r', '\t', '"', '\\']
  · simp only [List.mem_cons, List.not_mem_nil, or_false] at hc
    obtain rfl | rfl | rfl | rfl | rfl := hc
    · exact .control (by decide) he
    · exact .control (by decide) he
    · exact .control (by decide) he
    · exact .escaped (.inl rfl) he
    · exact .escaped (.inr rfl) he
  · simp only [List.mem_cons, List.not_mem_nil, or_false, not_or] at hc
    obtain ⟨hn, hr, ht, hquote, hescape⟩ := hc
    have hrange : 0x20 ≤ c.toNat ∧ c.toNat < 0x7F := by
      simpa [isSimple, hn, hr, ht] using h
    have hself : Literal.escape c = [c] := by
      unfold Literal.escape
      split
      · cases hrange.1
      · exact absurd rfl ht
      · exact absurd rfl hr
      · exact absurd rfl hn
      · exact absurd rfl hquote
      · exact absurd rfl hescape
      · rw [not_isExtendingMark_of_ascii (by omega), not_isUnprintable_of_ascii hrange.1 hrange.2]
        rfl
    rw [hself]
    exact .plain hquote hescape he

/-- For simple characters the literal that shows every character is one that reads back. -/
theorem writes_flatMap_escape {text : List Char} (h : ∀ c ∈ text, isSimple c = true) :
    Quoted.Writes text (text.flatMap Literal.escape) := by
  induction text with
  | nil => exact .nil
  | cons c text ih =>
    obtain ⟨hc, htext⟩ := List.forall_mem_cons.mp h
    exact writes_escape hc (ih htext)

end Text

/-- The token that a part becomes once its text is in the table of names. -/
def Lexeme.token? : Lexeme → Option Token
  | token t => some t
  | stringLiteral text => some (.stringLiteral text)
  | label name => some (.label name)
  | identifier name => some (.identifier name)
  | error _ => none

namespace Token

/-- The part of a line that a token is made of. -/
def lexeme : Token → Lexeme
  | stringLiteral text => .stringLiteral text
  | label name => .label name
  | identifier name => .identifier name
  | t => .token t

/-- The digits of a floating number need not be those that it was read from, and a literal may show
its characters by their codes. -/
def isPlain : Token → Bool
  | constant (.float _) | constant (.double _) => false
  | stringLiteral text => text.toList.all Text.isSimple
  | _ => true

/-- The text of the token is one part of a line, and it is this token again. -/
def ReadsBack (t : Token) : Prop :=
  ∃ c s, t.display.toList = c :: s ∧ Lexeme.next c s = ⟨c :: s, some t.lexeme, []⟩

theorem readsBack_operator (op : Operator) : (operator op).ReadsBack := by
  obtain ⟨c, s, hcs⟩ := List.exists_cons_of_ne_nil op.spelling_ne_nil
  have hlongest : Operator.longest? (c :: s) = some (op, []) := by
    rw [← hcs, Operator.longest?_eq_some_iff]
    exact ⟨(List.append_nil _).symm, fun other hother => hother.length_le⟩
  have hc : CharClass.isOperator c = true :=
    op.isOperator_of_mem_spelling c (hcs ▸ List.mem_cons_self)
  have hcomment : ∀ body, c = '/' → s ≠ '/' :: body := by
    rintro body rfl rfl
    cases op <;> cases hcs
  refine ⟨c, s, hcs, ?_⟩
  rw [Lexeme.next_of_operator hc hcomment, hlongest]
  dsimp only
  rw [hcs]
  rfl

theorem readsBack_integer (value : UInt64) : (constant (.integer value)).ReadsBack := by
  have hdigits : ∀ c ∈ Nat.toDigits 10 value.toNat, CharClass.isDigit c = true := fun c hc =>
    Nat.isDigit_of_mem_toDigits (by decide) (by decide) hc
  have hnames : ∀ c ∈ Nat.toDigits 10 value.toNat, CharClass.isIdentifier c = true :=
    fun c hc => CharClass.isIdentifier_of_isDigit (hdigits c hc)
  have hscan := Number.scan_of_integer hnames (Integer.parse_toDigits value)
  have htext : (constant (.integer value)).display.toList = Nat.toDigits 10 value.toNat := by
    rw [display, Number.display, Nat.toString_eq_ofList_toDigits, String.toList_ofList]
  have hne : Nat.toDigits 10 value.toNat ≠ [] := Nat.toDigits_ne_nil
  obtain ⟨c, s, hcs⟩ := List.exists_cons_of_ne_nil hne
  rw [hcs] at hdigits hscan
  refine ⟨c, s, htext.trans hcs, ?_⟩
  rw [Lexeme.next_of_digit (hdigits c List.mem_cons_self), hscan]
  rfl

theorem readsBack_stringLiteral {text : String} (h : ∀ c ∈ text.toList, Text.isSimple c = true) :
    (stringLiteral text).ReadsBack := by
  refine ⟨'"', text.toList.flatMap Text.Literal.escape ++ ['"'], ?_, ?_⟩
  · rw [display, quoted, String.toList_ofList]
    rfl
  · have hdecode := Text.Quoted.decode?_of_writes (Text.writes_flatMap_escape h) []
    unfold Lexeme.next
    rw [if_neg (by decide), if_neg (by decide), if_pos rfl, hdecode]
    dsimp only
    rw [List.length_nil, Nat.sub_zero, List.take_length, String.ofList_toList]
    rfl

theorem readsBack_label {name : List Char} (hne : name ≠ [])
    (h : ∀ c ∈ name, CharClass.isIdentifier c = true) :
    (label (String.ofList name)).ReadsBack := by
  refine ⟨'@', name, by simp [display], ?_⟩
  obtain ⟨d, s, rfl⟩ := List.exists_cons_of_ne_nil hne
  have hspan := Number.spanIdentifier_of_all h
  unfold Lexeme.next
  rw [if_neg (by decide), if_neg (by decide), if_neg (by decide), if_pos rfl, hspan]
  rfl

/-- Whether a text is a word of a line. -/
def isWord : List Char → Bool
  | [] => false
  | c :: s => (CharClass.isLetter c || c == '_') && s.all CharClass.isIdentifier

theorem readsBack_of_isWord {t : Token} (hword : isWord t.display.toList = true)
    (h : Lexeme.ofWord t.display = t.lexeme) : t.ReadsBack := by
  rcases hcs : t.display.toList with _ | ⟨c, s⟩
  · rw [hcs] at hword
    cases hword
  · rw [hcs, isWord, Bool.and_eq_true, List.all_eq_true] at hword
    refine ⟨c, s, hcs, ?_⟩
    rw [Lexeme.next_of_word hword.1, Number.spanIdentifier_of_all hword.2, ← hcs,
      String.ofList_toList, h]

theorem readsBack_keyword (word : Keyword) : (keyword word).ReadsBack := by
  cases word
  case blockBegin | blockEnd => exact ⟨_, _, rfl, rfl⟩
  all_goals exact readsBack_of_isWord (by decide) (by decide)

theorem readsBack_typeName {w : String} {id : TypeId} (h : TypeId.ofWord? w = some id) :
    (typeName id).ReadsBack := by
  unfold TypeId.ofWord? at h
  split at h
  case h_15 => cases h
  all_goals
    cases h
    exact readsBack_of_isWord (by decide) (by decide)

/-- The text of a pragma has no blanks around it, so it is found again behind one. -/
theorem readsBack_pragma {body : List Char} {x : Lexeme} {t : Token}
    (hx : Lexeme.ofLineComment? body = some x) (ht : x.token? = some t) : t.ReadsBack := by
  unfold Lexeme.ofLineComment? at hx
  split at hx
  · next s =>
    split at hx
    · cases hx
    · next hne =>
      cases hx
      cases ht
      obtain ⟨c, more, htext⟩ := List.exists_cons_of_ne_nil hne
      rw [htext]
      obtain ⟨behind, hbehind⟩ : c :: more <+: s.dropWhile CharClass.isBlank :=
        htext ▸ List.rdropWhile_prefix Text.isSpace _
      have hblank : CharClass.isBlank c = false := by
        have hhead := List.head?_dropWhile_not CharClass.isBlank s
        rw [← hbehind] at hhead
        simpa using hhead
      have hagain : Lexeme.ofLineComment? ('#' :: ' ' :: c :: more) =
          some (.token (.pragma (String.ofList (c :: more)))) := by
        have htrim : Text.trimEnd (c :: more) = c :: more := by
          rw [← htext]
          exact List.rdropWhile_idempotent Text.isSpace _
        have hdrop : (' ' :: c :: more).dropWhile CharClass.isBlank = c :: more := by
          rw [List.dropWhile_cons_of_pos (by decide), List.dropWhile_cons_of_neg (by simp [hblank])]
        rw [Lexeme.ofLineComment?, hdrop, htrim]
      refine ⟨'/', '/' :: '#' :: ' ' :: c :: more, by simp [display], ?_⟩
      rw [Lexeme.next_comment, hagain]
      rfl
  · cases hx

theorem readsBack_of_ofWord {w : List Char} {t : Token} (hword : isWord w = true)
    (ht : (Lexeme.ofWord (String.ofList w)).token? = some t) : t.ReadsBack := by
  rcases Lexeme.ofWord_cases (String.ofList w) with
    ⟨id, hid, hx⟩ | ⟨word, hx⟩ | hx | ⟨value, hx⟩ | hx <;> rw [hx] at ht <;> cases ht
  · exact readsBack_typeName hid
  · exact readsBack_keyword word
  · exact readsBack_integer value
  · exact readsBack_of_isWord (by simpa [display] using hword) hx

/-- Each part of a line that becomes a token is read back from its text, but for floating numbers
and for literals with characters that are shown by their codes. -/
theorem readsBack_of_next {c : Char} {s : List Char} {x : Lexeme} {t : Token}
    (hx : (Lexeme.next c s).lexeme = some x) (ht : x.token? = some t) (hplain : t.isPlain = true) :
    t.ReadsBack := by
  have hnext := Lexeme.isNext_next c s
  generalize Lexeme.next c s = step at hx hnext
  cases hnext with
  | blockBegin | blockEnd =>
    cases hx
    cases ht
    exact readsBack_keyword _
  | literal =>
    cases hx
    cases ht
    exact readsBack_stringLiteral (List.all_eq_true.mp hplain)
  | openLiteral | noLabel | noOperator =>
    cases hx
    cases ht
  | label hspan hne =>
    cases hx
    cases ht
    obtain ⟨rfl, -⟩ := Prod.mk.inj hspan
    exact readsBack_label hne fun d hd => List.mem_takeWhile_imp hd
  | number =>
    cases hx
    rcases hvalue : (Number.scan (c :: s)).value with (_ | _) | (value | _ | _) <;>
      rw [hvalue] at ht <;> cases ht
    · exact readsBack_integer value
    · cases hplain
    · cases hplain
  | word hc =>
    cases hx
    refine readsBack_of_ofWord ?_ ht
    rw [isWord, hc, Bool.true_and, List.all_eq_true]
    exact fun d hd => List.mem_takeWhile_imp hd
  | comment body => exact readsBack_pragma hx ht
  | operator =>
    cases hx
    cases ht
    exact readsBack_operator _
  | nothing => cases hx

end Token

end ScriptFront
