import ScriptFront.Proofs.Preprocess.Frame

/-! What a pass finds is added to what was found before, and never taken back. -/
namespace ScriptFront

namespace LineReport

/-- What was found first, and then what was found in addition. -/
def append (r t : LineReport) : LineReport := ⟨r.errors ++ t.errors, r.warnings ++ t.warnings⟩

instance : Append LineReport := ⟨append⟩

theorem append_def (r t : LineReport) :
    r ++ t = ⟨r.errors ++ t.errors, r.warnings ++ t.warnings⟩ := rfl

/-- No directive was found that looks for a block around the text, and no block too deep. -/
def IsClosed (r : LineReport) : Prop :=
  ∀ e ∈ r.errors, e.code ≠ .elseWithoutIf ∧ e.code ≠ .endifWithoutIf ∧ e.code ≠ .nestingTooDeep

variable {r t : LineReport}

@[simp] theorem append_empty (r : LineReport) : r ++ empty = r := by
  simp only [append_def, empty, List.append_nil]

theorem append_addErrors (r t : LineReport) (es : List LineError) :
    (r ++ t).addErrors es = r ++ t.addErrors es := by
  simp only [append_def, addErrors, List.append_assoc]

theorem append_addWarning (r t : LineReport) (w : LineWarning) :
    (r ++ t).addWarning w = r ++ t.addWarning w := by
  simp only [append_def, addWarning, List.append_assoc]

theorem IsClosed.of_subset (h : t.IsClosed) (hs : r.errors ⊆ t.errors) : r.IsClosed :=
  fun e he => h e (hs he)

end LineReport

/-- The expression of a directive, as it is written. -/
def Directive.expression? : Directive → Option (List Char)
  | .if_ condition => some condition
  | .define body => (definition? body).map (·.2)
  | _ => none

/-- The expression in a line of a file, if it is a directive line that has one. -/
def Directive.expressionOf? (line : Line) : Option (List Char) :=
  (start? line).bind fun text => (ofStatement (Text.Comment.statement text).text).expression?

/-- The error was found by tokenizing the text. -/
def LineError.IsLexical (hash : NameHash) (e : LineError) (text : List Char) : Prop :=
  ∃ (names : Interner hash) (lex : LexError), lex ∈ (tokenize names text).errors ∧
    e = lex.atLine e.line

theorem ConditionError.phase_code (e : ConditionError) : e.code.phase = .preprocessing := by
  cases e <;> rfl

namespace FilePass

variable {hash : NameHash}

/-- What `q` has found in addition to `p`, all of it at the given line. Of an expression there may be
errors of its tokens. -/
def Finds (hash : NameHash) (p : FilePass) (index : Nat) (expression : Option (List Char))
    (q : FilePass) : Prop :=
  ∃ es, q.report.errors = p.report.errors ++ es ∧ ∀ e ∈ es, e.line = index ∧
    (e.code.phase = .lexical → ∃ text ∈ expression, e.IsLexical hash text)

variable {p q : FilePass} {index : Nat} {expression : Option (List Char)}

theorem Finds.subset (h : p.Finds hash index expression q) :
    p.report.errors ⊆ q.report.errors := by
  obtain ⟨es, hes, -⟩ := h
  rw [hes]
  exact List.subset_append_left ..

theorem finds_nothing (h : q.report.errors = p.report.errors) :
    p.Finds hash index expression q := ⟨[], by simpa using h, by simp⟩

theorem finds_error {code : ErrorCode} (hcode : code.phase ≠ .lexical) (message : String) :
    p.Finds hash index expression (p.addError index code message) :=
  ⟨[⟨index, code, message⟩], rfl, by simp [hcode]⟩

/-- What is changed apart from the report has no part in this. -/
theorem Finds.congr (h : p.Finds hash index expression q) {p' q' : FilePass}
    (hp : p'.report = p.report) (hq : q'.report = q.report) :
    p'.Finds hash index expression q' := by
  unfold Finds
  rw [hp, hq]
  exact h

theorem finds_evaluate (p : FilePass) (s : Symbols hash) (index : Nat) (text : List Char) :
    p.Finds hash index (some text) (p.evaluate s index text).2.1 := by
  unfold evaluate
  simp only
  split
  · split
    · exact finds_nothing rfl
    · next e _ => exact finds_error (by simp [e.phase_code]) _
  · refine ⟨(tokenize s.names text).errors.map (·.atLine index), rfl, fun e he => ?_⟩
    obtain ⟨lex, hlex, rfl⟩ := List.mem_map.mp he
    exact ⟨rfl, fun _ => ⟨text, rfl, s.names, lex, hlex, rfl⟩⟩

theorem errors_setValue (p : FilePass) (s : Symbols hash) (index : Nat) (name : String)
    (value : Int64) : (p.setValue s index name value).1.report.errors = p.report.errors := by
  unfold setValue
  simp only
  split
  · rfl
  · split <;> rfl

theorem finds_define (p : FilePass) (s : Symbols hash) (index : Nat) (body : List Char) :
    p.Finds hash index (Directive.define body).expression? (p.define s index body).1 := by
  rcases hbody : Directive.definition? body with _ | ⟨name, text⟩ <;>
    simp only [Directive.expression?, define, hbody, Option.map_none, Option.map_some]
  · exact finds_error (by decide) _
  · cases text with
    | nil => exact finds_nothing (errors_setValue ..)
    | cons c text =>
      have h := finds_evaluate p s index (c :: text)
      dsimp only
      rcases hrun : p.evaluate s index (c :: text) with ⟨_ | value, q, s'⟩ <;> rw [hrun] at h
      · exact h
      · obtain ⟨es, hes, hall⟩ := h
        exact ⟨es, (errors_setValue ..).trans hes, hall⟩

theorem finds_openSkipped (p : FilePass) (index : Nat) :
    p.Finds hash index expression (p.openSkipped index) := by
  unfold openSkipped
  split
  · exact finds_nothing rfl
  · exact finds_error (by decide) _

theorem finds_openBlock (p : FilePass) (s : Symbols hash) (index : Nat) (condition : List Char) :
    p.Finds hash index (some condition) (p.openBlock s index condition).1 := by
  unfold openBlock
  split
  · next depth _ _ => exact finds_evaluate { p with depth } s index condition
  · exact finds_openSkipped p index

theorem finds_otherBranch (p : FilePass) (index : Nat) :
    p.Finds hash index expression (p.otherBranch index) := by
  unfold otherBranch
  split
  · exact finds_error (by decide) _
  · split
    · exact finds_error (by decide) _
    · exact finds_nothing rfl

theorem finds_closeBlock (p : FilePass) (index : Nat) :
    p.Finds hash index expression (p.closeBlock index) := by
  unfold closeBlock
  split
  · exact finds_error (by decide) _
  · exact finds_nothing rfl

theorem finds_direct (p : FilePass) (s : Symbols hash) (index : Nat) (d : Directive) :
    p.Finds hash index d.expression? (p.direct s index d).2.1 := by
  cases d with
  | if_ condition => exact finds_openBlock p s index condition
  | else_ => exact finds_otherBranch p index
  | endif => exact finds_closeBlock p index
  | define body =>
    unfold direct
    dsimp only
    split
    · exact finds_define p s index body
    · exact finds_nothing rfl
  | includeFile => exact finds_nothing rfl
  | unknown name =>
    unfold direct
    dsimp only
    split
    · exact finds_error (by decide) _
    · exact finds_nothing rfl

theorem report_code (p : FilePass) (index : Nat) (line : Line) :
    (p.code index line).2.report = p.report := by
  unfold code
  split
  · show (if _ then _ else _ : FilePass).report = _
    split <;> rfl
  · rfl

/-- All that is found in a line is found at it, and errors of tokens only in its expression. -/
theorem finds_processLine (p : FilePass) (s : Symbols hash) (index : Nat) (line : Line) :
    p.Finds hash index (Directive.expressionOf? line) (p.processLine s index line).2.1 := by
  unfold processLine
  split
  · split
    · exact finds_nothing rfl
    · exact finds_nothing (congrArg LineReport.errors (report_code ..))
  · split
    · next text htext =>
      unfold Directive.expressionOf? directive
      rw [htext]
      refine (finds_direct _ s index _).congr ?_ rfl
      split <;> rfl
    · exact finds_nothing (congrArg LineReport.errors (report_code ..))

theorem errors_subset_processFrom (p : FilePass) (s : Symbols hash) (index : Nat)
    (lines : List Line) :
    p.report.errors ⊆ (p.processFrom s index lines).2.1.report.errors := by
  induction lines generalizing p s index with
  | nil => exact List.Subset.refl _
  | cons line lines ih =>
    exact List.Subset.trans (finds_processLine p s index line).subset (ih ..)

end FilePass
end ScriptFront
