import ScriptFront.Preprocess.FilePass

/-! What a line leaves alone. Expressions and definitions see nothing of the open blocks, and only
the branch directives change them. The depth counts the open blocks in every pass. -/
namespace ScriptFront

variable {hash : NameHash}

/-- The value of an expression, which no open block has a part in. -/
def Symbols.value? (s : Symbols hash) (text : List Char) : Option Int64 :=
  (FilePass.start.evaluate s 0 text).1

namespace FilePass

def withReport (p : FilePass) (r : LineReport) : FilePass := { p with report := r }

/-- A pass outside of all blocks and comments. -/
def outside (r : LineReport) : FilePass := start.withReport r

theorem evaluate_eq (p : FilePass) (s : Symbols hash) (index : Nat) (text : List Char) :
    p.evaluate s index text =
      let (v, q, s) := (outside p.report).evaluate s index text
      (v, p.withReport q.report, s) := by
  unfold evaluate
  simp only
  split
  · split <;> rfl
  · rfl

theorem value_evaluate (p : FilePass) (s : Symbols hash) (index : Nat) (text : List Char) :
    (p.evaluate s index text).1 = s.value? text := by
  unfold Symbols.value? evaluate
  dsimp only
  split
  · split <;> rfl
  · rfl

theorem setValue_eq (p : FilePass) (s : Symbols hash) (index : Nat) (name : String)
    (value : Int64) : p.setValue s index name value =
      let (q, s) := (outside p.report).setValue s index name value
      (p.withReport q.report, s) := by
  unfold setValue
  simp only
  split
  · rfl
  · split <;> rfl

theorem define_eq (p : FilePass) (s : Symbols hash) (index : Nat) (body : List Char) :
    p.define s index body =
      let (q, s) := (outside p.report).define s index body
      (p.withReport q.report, s) := by
  unfold define
  split
  · rfl
  · rw [setValue_eq]
  · rw [evaluate_eq]
    rcases (outside p.report).evaluate s index _ with ⟨v, q, s⟩
    cases v with
    | none => rfl
    | some value =>
      simp only
      rw [setValue_eq, setValue_eq q]
      rfl

/-! Runs over the lines of a file. -/

theorem processFrom_append (p : FilePass) (s : Symbols hash) (index : Nat) (xs ys : List Line) :
    p.processFrom s index (xs ++ ys) =
      let (out, p, s) := p.processFrom s index xs
      let (out', p, s) := p.processFrom s (index + xs.length) ys
      (out ++ out', p, s) := by
  induction xs generalizing p s index with
  | nil => rfl
  | cons x xs ih =>
    have hindex : index + (x :: xs).length = index + 1 + xs.length := by
      rw [List.length_cons]
      omega
    rw [List.cons_append, processFrom, processFrom, hindex]
    rcases p.processLine s index x with ⟨line, q, s⟩
    simp only [ih]
    rfl

/-- The line is a directive that leaves no comment open. -/
def IsDirective (line : Line) (d : Directive) : Prop :=
  ∃ text ∈ Directive.start? line, (Text.Comment.statement text).isOpen = false ∧
    Directive.ofStatement (Text.Comment.statement text).text = d

instance (line : Line) (d : Directive) : Decidable (IsDirective line d) :=
  inferInstanceAs (Decidable (∃ text, text ∈ Directive.start? line ∧ _ ∧ _))

/-- The line is no directive and leaves no comment open. -/
def IsCode (line : Line) : Prop :=
  Directive.start? line = none ∧ (Text.Comment.erase line).isOpen = false

instance (line : Line) : Decidable (IsCode line) := inferInstanceAs (Decidable (_ ∧ _))

variable {p : FilePass} {line : Line}

theorem processLine_of_isDirective (hc : p.openComment = none) {d : Directive}
    (hd : IsDirective line d) (s : Symbols hash) (index : Nat) :
    p.processLine s index line =
      let (stays, p, s) := p.direct s index d
      (if stays then line else [], p, s) := by
  obtain ⟨text, ht, ho, rfl⟩ := hd
  simp only [processLine, hc, Option.mem_def.mp ht, directive, ho, Bool.false_and,
    Bool.false_eq_true, if_false]

theorem processLine_of_isCode (hc : p.openComment = none) (hl : IsCode line) (s : Symbols hash)
    (index : Nat) : p.processLine s index line =
      (if p.isActive then (Text.Comment.erase line).text else [], p, s) := by
  obtain ⟨ht, ho⟩ := hl
  simp only [processLine, hc, ht, code, ho]
  cases p.isActive <;> rfl

/-- In a line of code, at most a comment begins. -/
theorem code_cases (p : FilePass) (index : Nat) (line : Line) :
    ∃ c, (p.code index line).2 = { p with openComment := c } := by
  unfold code
  split
  · dsimp only
    split
    · exact ⟨some index, rfl⟩
    · exact ⟨p.openComment, rfl⟩
  · exact ⟨p.openComment, rfl⟩

/-- The directive that the pass executes in a line, be it in a chosen branch or not. -/
def executed? (p : FilePass) (line : Line) : Option Directive :=
  match p.openComment with
  | some _ => none
  | none => (Directive.start? line).map fun text =>
      .ofStatement (Text.Comment.statement text).text

/-- A line does what its directive does, and a comment may begin or end in it. -/
theorem processLine_cases (p : FilePass) (s : Symbols hash) (index : Nat) (line : Line) :
    ∃ c, (p.processLine s index line).2 =
      match p.executed? line with
      | none => ({ p with openComment := c }, s)
      | some d => ({ p with openComment := c }.direct s index d).2 := by
  unfold FilePass.processLine executed?
  cases hc : p.openComment with
  | some opened =>
    dsimp only
    split
    · exact ⟨p.openComment, rfl⟩
    · next rest _ =>
      obtain ⟨c, h⟩ := { p with openComment := none }.code_cases index (' ' :: rest)
      exact ⟨c, congrArg (·, s) h⟩
  | none =>
    cases hd : Directive.start? line with
    | none =>
      obtain ⟨c, h⟩ := p.code_cases index line
      exact ⟨c, congrArg (·, s) h⟩
    | some text =>
      dsimp only [directive, Option.map]
      split
      · exact ⟨some index, rfl⟩
      · exact ⟨p.openComment, rfl⟩

end FilePass
end ScriptFront
