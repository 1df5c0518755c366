import ScriptFront.Proofs.Preprocess.Findings

/-! The phases of the errors in a file. Whatever its lines are, a pass over them finds only faults of
tokens and faults of preprocessing. -/
namespace ScriptFront

theorem LexCause.phase_code (c : LexCause) : c.code.phase = .lexical := by
  cases c <;> rfl

namespace LineReport

/-- All errors are faults of tokens or of preprocessing. -/
def OfFile (r : LineReport) : Prop :=
  ∀ e ∈ r.errors, e.code.phase = .lexical ∨ e.code.phase = .preprocessing

theorem ofFile_empty : empty.OfFile := nofun

variable {r : LineReport}

theorem OfFile.addErrors (h : r.OfFile) {es : List LineError}
    (hes : ∀ e ∈ es, e.code.phase = .lexical ∨ e.code.phase = .preprocessing) :
    (r.addErrors es).OfFile :=
  List.forall_mem_append.mpr ⟨h, hes⟩

theorem OfFile.of_errors_eq (h : r.OfFile) {t : LineReport} (ht : t.errors = r.errors) :
    t.OfFile := by
  unfold OfFile
  rwa [ht]

end LineReport

namespace FilePass

variable {hash : NameHash} {p : FilePass}

theorem ofFile_addError (h : p.report.OfFile) {code : ErrorCode}
    (hcode : code.phase = .preprocessing) (index : Nat) (message : String) :
    (p.addError index code message).report.OfFile :=
  h.addErrors (List.forall_mem_singleton.mpr (.inr hcode))

theorem ofFile_evaluate (h : p.report.OfFile) (s : Symbols hash) (index : Nat)
    (text : List Char) : (p.evaluate s index text).2.1.report.OfFile := by
  unfold evaluate
  dsimp only
  split
  · split
    · exact h
    · next e _ => exact ofFile_addError h e.phase_code _ _
  · refine h.addErrors fun e he => ?_
    obtain ⟨lex, -, rfl⟩ := List.mem_map.mp he
    exact .inl lex.cause.phase_code

theorem ofFile_setValue (h : p.report.OfFile) (s : Symbols hash) (index : Nat) (name : String)
    (value : Int64) : (p.setValue s index name value).1.report.OfFile :=
  h.of_errors_eq (errors_setValue ..)

theorem ofFile_define (h : p.report.OfFile) (s : Symbols hash) (index : Nat)
    (body : List Char) : (p.define s index body).1.report.OfFile := by
  unfold define
  split
  · exact ofFile_addError h rfl _ _
  · exact ofFile_setValue h _ _ _ _
  · next text _ _ =>
    have hvalue := ofFile_evaluate h s index text
    split
    · next hrun =>
      rw [hrun] at hvalue
      exact ofFile_setValue hvalue _ _ _ _
    · next hrun =>
      rw [hrun] at hvalue
      exact hvalue

theorem ofFile_openSkipped (h : p.report.OfFile) (index : Nat) :
    (p.openSkipped index).report.OfFile := by
  unfold openSkipped
  split
  · exact h
  · exact ofFile_addError h rfl _ _

theorem ofFile_openBlock (h : p.report.OfFile) (s : Symbols hash) (index : Nat)
    (condition : List Char) : (p.openBlock s index condition).1.report.OfFile := by
  unfold openBlock
  split
  · next depth _ _ => exact ofFile_evaluate (p := { p with depth }) h s index condition
  · exact ofFile_openSkipped h index

theorem ofFile_otherBranch (h : p.report.OfFile) (index : Nat) :
    (p.otherBranch index).report.OfFile := by
  unfold otherBranch
  split
  · exact ofFile_addError h rfl _ _
  · split
    · exact ofFile_addError h rfl _ _
    · exact h

theorem ofFile_closeBlock (h : p.report.OfFile) (index : Nat) :
    (p.closeBlock index).report.OfFile := by
  unfold closeBlock
  split
  · exact ofFile_addError h rfl _ _
  · exact h

theorem ofFile_direct (h : p.report.OfFile) (s : Symbols hash) (index : Nat) (d : Directive) :
    (p.direct s index d).2.1.report.OfFile := by
  cases d with
  | if_ condition => exact ofFile_openBlock h s index condition
  | else_ => exact ofFile_otherBranch h index
  | endif => exact ofFile_closeBlock h index
  | define body =>
    unfold direct
    dsimp only
    split
    · exact ofFile_define h s index body
    · exact h
  | includeFile => exact h
  | unknown name =>
    unfold direct
    dsimp only
    split
    · exact ofFile_addError h rfl _ _
    · exact h

theorem ofFile_processLine (h : p.report.OfFile) (s : Symbols hash) (index : Nat)
    (line : Line) : (p.processLine s index line).2.1.report.OfFile := by
  obtain ⟨c, hline⟩ := processLine_cases p s index line
  rw [hline]
  split
  · exact h
  · next d _ => exact ofFile_direct (p := { p with openComment := c }) h s index d

theorem ofFile_finish (h : p.report.OfFile) : p.finish.OfFile := by
  refine h.addErrors (List.forall_mem_append.mpr ⟨fun e he => ?_, fun e he => ?_⟩)
  · obtain ⟨b, -, rfl⟩ := List.mem_map.mp he
    exact .inr rfl
  · obtain ⟨line, -, rfl⟩ := List.mem_map.mp he
    exact .inr rfl

end FilePass
end ScriptFront
