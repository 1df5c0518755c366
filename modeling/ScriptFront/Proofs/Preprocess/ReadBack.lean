import ScriptFront.Proofs.Condition.Climbing
import ScriptFront.Proofs.Definitions.Buckets
import ScriptFront.Proofs.Preprocess.Findings
import ScriptFront.Proofs.Token.Names

/-! Reading a defined name back. A definition takes any text with the characters of a name that
begins with no digit, but conditions read only the texts that are names for the tokenizer. Main
statement: a condition that is such a name has the value of its definition, and the value of any
other defined text is never read. -/
namespace ScriptFront

open Lexeme (IsName)

variable {hash : NameHash}

namespace Directive

theorem definition?_eq_some {body text : List Char} {name : String}
    (h : definition? body = some (name, text)) :
    ∃ c s, name.toList = c :: s ∧ (∀ d ∈ c :: s, CharClass.isIdentifier d = true) ∧
      CharClass.isDigit c = false := by
  unfold definition? at h
  split at h
  · cases h
  · next c s hword =>
    split at h
    · cases h
    · next hdigit =>
      cases h
      refine ⟨c, s, String.toList_ofList, ?_, Bool.eq_false_iff.mpr hdigit⟩
      rw [← hword]
      exact fun d hd => List.mem_takeWhile_imp hd

end Directive

namespace Symbols

variable {s t : Symbols hash} {text : List Char} {name : String} {v : Int64}

/-- The value that a definition gives. -/
def given? (s : Symbols hash) (text : List Char) : Option Int64 :=
  if text = [] then some 1 else s.value? text

def withValue (s : Symbols hash) (name : String) (value : Int64) : Symbols hash :=
  { s with definitions := (s.definitions.set name value).2 }

theorem value?_eq_some_iff : s.value? text = some v ↔ (tokenize s.names text).errors = [] ∧
    Condition.evaluate s.definitions.value (tokenize s.names text).tokens = .ok v := by
  unfold value? FilePass.evaluate
  dsimp only
  by_cases he : (tokenize s.names text).errors = []
  · rw [if_pos (by rw [he]; rfl)]
    cases hv : Condition.evaluate s.definitions.value (tokenize s.names text).tokens with
    | ok w => simp [he]
    | error e => simp [he]
  · rw [if_neg (by simpa using he)]
    simp [he]

/-- What a text means depends on the values of the identifiers in it alone. -/
theorem value?_congr (hnames : s.names = t.names)
    (h : ∀ name, (∃ o, (o, .identifier name) ∈ lexemes 0 text) →
      s.definitions.value name = t.definitions.value name) :
    s.value? text = t.value? text := by
  have hvalue (n : String) (hn : .identifier n ∈ (tokenize s.names text).tokens) :
      s.definitions.value n = t.definitions.value n := h n (Lexeme.exists_of_mem_tokenize hn)
  refine Option.ext fun v => ?_
  rw [value?_eq_some_iff, value?_eq_some_iff, ← hnames]
  constructor
  · exact fun ⟨he, hv⟩ => ⟨he, Condition.evaluate_ok_congr hvalue hv⟩
  · exact fun ⟨he, hv⟩ => ⟨he, Condition.evaluate_ok_congr (fun n hn => (hvalue n hn).symm) hv⟩

theorem value_withValue (s : Symbols hash) (name other : String) (v : Int64) :
    (s.withValue name v).definitions.value other =
      if other = name then v else s.definitions.value other := by
  rw [withValue, Definitions.value, Definitions.get?_set]
  split <;> rfl

end Symbols

namespace FilePass

variable {p : FilePass} {s s' : Symbols hash} {index : Nat} {line : Line} {name : String}
  {text : List Char}

/-- The value of a text that is no name is not read, although it may have been defined. -/
theorem value?_withValue (h : ¬IsName name) {body : List Char}
    (hbody : Directive.definition? body = some (name, text)) (s : Symbols hash) (w : Int64) :
    (s.withValue name w).value? name.toList = s.value? name.toList := by
  obtain ⟨c, r, hname, hall, hdigit⟩ := Directive.definition?_eq_some hbody
  refine Symbols.value?_congr rfl fun n ⟨o, hn⟩ => ?_
  rw [Symbols.value_withValue]
  split
  · next heq =>
    subst heq
    exact absurd hn (Lexeme.not_mem_lexemes h hname hall hdigit o)
  · rfl

/-- An expression has a value, or it is a fault that it has none. It defines nothing. -/
theorem evaluate_cases (p : FilePass) (s : Symbols hash) (index : Nat) (text : List Char) :
    ∃ names, (∃ v, p.evaluate s index text = (some v, p, { s with names })) ∨
      ∃ q, p.evaluate s index text = (none, q, { s with names }) ∧
        q.report.errors ≠ p.report.errors := by
  refine ⟨(tokenize s.names text).names, ?_⟩
  unfold evaluate
  dsimp only
  split
  · split
    · next v _ => exact .inl ⟨v, rfl⟩
    · exact .inr ⟨_, rfl, by simp [addError, LineReport.addErrors]⟩
  · next he =>
    refine .inr ⟨_, rfl, ?_⟩
    simpa [addErrors, LineReport.addErrors] using he

/-- The value of a name is read without a fault. -/
theorem evaluate_of_isName (h : IsName name) (hn : s.names.refuses name = false) (p : FilePass)
    (index : Nat) :
    ∃ s', p.evaluate s index name.toList = (some (s.definitions.value name), p, s') := by
  obtain ⟨htokens, herrors⟩ := h.tokenize_eq hn
  have hvalue : s.value? name.toList = some (s.definitions.value name) :=
    Symbols.value?_eq_some_iff.mpr ⟨herrors, by rw [htokens, Condition.evaluate_identifier]⟩
  obtain ⟨names, ⟨v, hrun⟩ | ⟨q, hrun, -⟩⟩ := p.evaluate_cases s index name.toList <;>
    rw [← p.value_evaluate s index, hrun] at hvalue <;> cases hvalue
  exact ⟨_, hrun⟩

theorem symbols_setValue (p : FilePass) (s : Symbols hash) (index : Nat) (name : String)
    (v : Int64) : (p.setValue s index name v).2 = s.withValue name v := by
  unfold setValue
  dsimp only
  split
  · rfl
  · split <;> rfl

/-- A definition is a fault and changes nothing, or it gives a name its value. -/
theorem define_cases (p : FilePass) (s : Symbols hash) (index : Nat) (body : List Char) :
    ((p.define s index body).1.report.errors ≠ p.report.errors ∧
        (p.define s index body).2.definitions = s.definitions) ∨
      ∃ name text v, Directive.definition? body = some (name, text) ∧ s.given? text = some v ∧
        (p.define s index body).1.report.errors = p.report.errors ∧
        (p.define s index body).2.definitions = (s.withValue name v).definitions := by
  unfold define
  split
  · exact .inl ⟨by simp [addError, LineReport.addErrors], rfl⟩
  · next name hbody =>
    refine .inr ⟨name, [], 1, hbody, rfl, errors_setValue .., ?_⟩
    rw [symbols_setValue]
  · next name text htext hbody =>
    obtain ⟨names, ⟨v, hrun⟩ | ⟨q, hrun, herrors⟩⟩ := p.evaluate_cases s index text
    · have hgiven : s.given? text = some v := by
        rw [Symbols.given?, if_neg htext, ← p.value_evaluate s index, hrun]
      refine .inr ⟨name, text, v, hbody, hgiven, ?_, ?_⟩
      · rw [hrun]
        exact errors_setValue ..
      · rw [hrun]
        show (p.setValue _ index name v).2.definitions = _
        rw [symbols_setValue]
        rfl
    · rw [hrun]
      exact .inl ⟨herrors, rfl⟩

/-- The pass accepts the line as a definition of the name by the text. -/
structure Defines (p : FilePass) (s : Symbols hash) (index : Nat) (line : Line) (name : String)
    (text : List Char) : Prop where
  isActive : p.isActive = true
  executed : ∃ body, p.executed? line = some (.define body) ∧
    Directive.definition? body = some (name, text)
  accepted : (p.processLine s index line).2.1.report.errors = p.report.errors

theorem definitions_openBlock (p : FilePass) (s : Symbols hash) (index : Nat)
    (condition : List Char) :
    (p.openBlock s index condition).2.definitions = s.definitions := by
  unfold openBlock
  split
  · next depth _ _ =>
    obtain ⟨names, ⟨v, hrun⟩ | ⟨q, hrun, -⟩⟩ :=
      { p with depth }.evaluate_cases s index condition <;> rw [hrun]
  · rfl

/-- Only a definition in a chosen branch changes the definitions. -/
theorem definitions_direct {d : Directive} (h : ∀ body, d = .define body → p.isActive = false)
    (s : Symbols hash) (index : Nat) :
    (p.direct s index d).2.2.definitions = s.definitions := by
  cases d with
  | if_ condition => exact definitions_openBlock p s index condition
  | define body =>
    show (if p.isActive then p.define s index body else (p, s)).2.definitions = _
    rw [h body rfl, if_neg Bool.false_ne_true]
  | else_ | endif | includeFile | unknown name => rfl

/-- A definition is accepted or nothing is defined, whatever the line is. -/
theorem processLine_definitions (p : FilePass) (s : Symbols hash) (index : Nat) (line : Line) :
    (∃ name text v, p.Defines s index line name text ∧ s.given? text = some v ∧
        (p.processLine s index line).2.2.definitions = (s.withValue name v).definitions) ∨
      (∀ name text, ¬p.Defines s index line name text) ∧
        (p.processLine s index line).2.2.definitions = s.definitions := by
  obtain ⟨c, hrun⟩ := p.processLine_cases s index line
  let q := { p with openComment := c }
  by_cases hd : ∃ body, p.executed? line = some (.define body) ∧ p.isActive = true
  · obtain ⟨body, hd, ha⟩ := hd
    have hdefine : (p.processLine s index line).2 = q.define s index body := by
      rw [hrun, hd]
      exact if_pos ha
    rcases q.define_cases s index body with
      ⟨herrors, hdefs⟩ | ⟨name, text, v, hbody, hgiven, herrors, hdefs⟩
    · refine .inr ⟨fun name text h => herrors ?_, by rw [hdefine, hdefs]⟩
      rw [← hdefine]
      exact h.accepted
    · refine .inl ⟨name, text, v, ⟨ha, ⟨body, hd, hbody⟩, ?_⟩, hgiven, by rw [hdefine, hdefs]⟩
      rw [hdefine]
      exact herrors
  · refine .inr ⟨fun name text ⟨ha, ⟨body, hbody, _⟩, _⟩ => hd ⟨body, hbody, ha⟩, ?_⟩
    rw [hrun]
    cases hexecuted : p.executed? line with
    | none => rfl
    | some d =>
      refine definitions_direct (p := q) (fun body hbody => ?_) s index
      rw [hbody] at hexecuted
      exact Bool.eq_false_iff.mpr fun ha => hd ⟨body, hexecuted, ha⟩

theorem Defines.unique {name' : String} {text' : List Char}
    (h : p.Defines s index line name text) (h' : p.Defines s index line name' text') :
    name' = name ∧ text' = text := by
  obtain ⟨body, hbody, hgives⟩ := h.executed
  obtain ⟨body', hbody', hgives'⟩ := h'.executed
  obtain rfl : body' = body := by
    rw [hbody] at hbody'
    cases hbody'
    rfl
  rw [hgives] at hgives'
  cases hgives'
  exact ⟨rfl, rfl⟩

theorem Defines.definitions (h : p.Defines s index line name text) :
    ∃ v, s.given? text = some v ∧
      (p.processLine s index line).2.2.definitions = (s.withValue name v).definitions := by
  rcases p.processLine_definitions s index line with
    ⟨name', text', v, h', hgiven, hdefs⟩ | ⟨hnot, -⟩
  · obtain ⟨rfl, rfl⟩ := h.unique h'
    exact ⟨v, hgiven, hdefs⟩
  · exact absurd h (hnot name text)

end FilePass

/-- What the symbols `s` come to be by lines and other texts, as long as the name is not defined. -/
inductive Symbols.Later (name : String) (s : Symbols hash) : Symbols hash → Prop
  | refl : Later name s s
  | names {t : Symbols hash} (h : Later name s t) (names : Interner hash) :
      Later name s { t with names }
  | processLine {t : Symbols hash} (h : Later name s t) (p : FilePass) (index : Nat) (line : Line)
      (hline : ∀ text, ¬p.Defines t index line name text) :
      Later name s (p.processLine t index line).2.2

theorem Symbols.Later.get?_eq {s t : Symbols hash} {name : String} (h : s.Later name t) :
    t.definitions.get? name = s.definitions.get? name := by
  induction h with
  | refl => rfl
  | names h names ih => exact ih
  | processLine h p index line hline ih =>
    rcases p.processLine_definitions _ index line with
      ⟨other, text, v, hother, -, hdefs⟩ | ⟨-, hdefs⟩
    · have hne : name ≠ other := by
        rintro rfl
        exact hline text hother
      rw [hdefs, withValue, Definitions.get?_set, if_neg hne, ih]
    · rw [hdefs, ih]

namespace FilePass

variable {p : FilePass} {s : Symbols hash} {index : Nat} {line : Line} {name : String}
  {text : List Char}

/-- A name whose definition is accepted is read with its value until it is defined again, if the
tokenizer takes it for a name, and in no other case is its value ever read. -/
theorem Defines.readsBack (h : p.Defines s index line name text) :
    let s' := (p.processLine s index line).2.2
    ∃ v, s.given? text = some v ∧ s'.definitions.get? name = some ⟨name, v⟩ ∧
      (IsName name → ∀ t, s'.Later name t → t.names.refuses name = false →
        ∀ (q : FilePass) (i : Nat), ∃ t', q.evaluate t i name.toList = (some v, q, t')) ∧
      (¬IsName name → ∀ (t : Symbols hash) (w : Int64),
        (t.withValue name w).value? name.toList = t.value? name.toList) := by
  intro s'
  obtain ⟨v, hgiven, hdefs⟩ := h.definitions
  obtain ⟨body, -, hbody⟩ := h.executed
  have hstored : s'.definitions.get? name = some ⟨name, v⟩ := by
    rw [hdefs, Symbols.withValue, Definitions.get?_set, if_pos rfl]
  refine ⟨v, hgiven, hstored, fun hname t ht hn q i => ?_, fun hname t w => ?_⟩
  · have hv : t.definitions.value name = v := by
      rw [Definitions.value, ht.get?_eq, hstored]
      rfl
    rw [← hv]
    exact evaluate_of_isName hname hn q i
  · exact value?_withValue hname hbody t w

/-- A definition without an expression is read as 1. -/
theorem Defines.readsBack_flag :
    let s : Symbols fun _ => 0 := ⟨.empty, .empty⟩
    let s' := (start.processLine s 0 "#define FLAG".toList).2.2
    start.Defines s 0 "#define FLAG".toList "FLAG" [] ∧ IsName "FLAG" ∧ s'.Later "FLAG" s' ∧
      s'.names.refuses "FLAG" = false ∧
      ∃ t', start.evaluate s' 1 "FLAG".toList = (some 1, start, t') := by
  intro s s'
  have hline : IsDirective "#define FLAG".toList (.define "FLAG".toList) := by decide +kernel
  have hbody : Directive.definition? "FLAG".toList = some ("FLAG", []) := by decide +kernel
  have hrun : start.processLine s 0 "#define FLAG".toList = ([], start, s.withValue "FLAG" 1) := by
    rw [processLine_of_isDirective rfl hline, direct, define, hbody]
    rfl
  have hdefines : start.Defines s 0 "#define FLAG".toList "FLAG" [] :=
    ⟨rfl, ⟨"FLAG".toList, by decide +kernel, hbody⟩, by rw [hrun]⟩
  have hname : IsName "FLAG" := by decide +kernel
  have hrefuses : s'.names.refuses "FLAG" = false := by
    rw [show s' = s.withValue "FLAG" 1 from congrArg (·.2.2) hrun]
    rfl
  obtain ⟨v, hgiven, -, hread, -⟩ := hdefines.readsBack
  cases hgiven
  exact ⟨hdefines, hname, .refl, hrefuses, hread hname s' .refl hrefuses start 1⟩

/-- A name with a dot in front is accepted, and a condition reads another name in its place. -/
theorem Defines.evaluate_dot :
    let s : Symbols fun _ => 0 := ⟨.empty, .empty⟩
    let s' := (start.processLine s 0 "#define .a".toList).2.2
    start.openComment = none ∧ start.Defines s 0 "#define .a".toList ".a" [] ∧
      s'.definitions.get? ".a" = some ⟨".a", 1⟩ ∧ s'.names.refuses ".a" = false ∧
      (start.evaluate s' 1 ".a".toList).1 = some 0 := by
  intro s s'
  have hline : IsDirective "#define .a".toList (.define ".a".toList) := by decide +kernel
  have hbody : Directive.definition? ".a".toList = some (".a", []) := by decide +kernel
  have hrun : start.processLine s 0 "#define .a".toList = ([], start, s.withValue ".a" 1) := by
    rw [processLine_of_isDirective rfl hline, direct, define, hbody]
    rfl
  have hdefines : start.Defines s 0 "#define .a".toList ".a" [] :=
    ⟨rfl, ⟨".a".toList, by decide +kernel, hbody⟩, by rw [hrun]⟩
  have hs' : s' = s.withValue ".a" 1 := congrArg (·.2.2) hrun
  have htokens : (tokenize s.names ".a".toList).tokens = [.identifier "a"] := by
    decide +kernel
  have herrors : (tokenize s.names ".a".toList).errors = [] := by decide +kernel
  have hvalue : (s.withValue ".a" 1).value? ".a".toList = some 0 := by
    rw [value?_withValue (by decide +kernel) hbody]
    exact Symbols.value?_eq_some_iff.mpr
      ⟨herrors, by rw [htokens, Condition.evaluate_identifier]; rfl⟩
  rw [value_evaluate, hs']
  exact ⟨rfl, hdefines, rfl, rfl, hvalue⟩

end FilePass

end ScriptFront
