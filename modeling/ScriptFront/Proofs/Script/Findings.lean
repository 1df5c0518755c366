import ScriptFront.Proofs.Diagnostic.Summary
import ScriptFront.Proofs.Preprocess.Phases
import ScriptFront.Proofs.Script.Trace

/-! The errors that reading a script finds. They are faults of tokens, of preprocessing and of loading,
and of no other phase. -/
namespace ScriptFront

/-- Faults of the phase are found while a script is read. -/
def Phase.OfReading (p : Phase) : Prop := p = .lexical ∨ p = .preprocessing ∨ p = .loading

instance (p : Phase) : Decidable p.OfReading := inferInstanceAs (Decidable (_ ∨ _ ∨ _))

namespace Diagnostics

theorem new_eq_collected (limit : Nat) : new limit = collected limit [] [] := addAll_new limit []

theorem foldl_addWarning_collected (limit : Nat) (es : List ErrorRecord)
    (code : LineWarning → WarningCode) (message : LineWarning → String)
    (site : LineWarning → WarningSite) (found : List LineWarning) (ws : List WarningRecord) :
    ∃ ws', found.foldl (fun d w => d.addWarning (code w) (message w) (site w))
      (collected limit es ws) = collected limit es ws' := by
  induction found generalizing ws with
  | nil => exact ⟨ws, rfl⟩
  | cons w found ih =>
    rw [List.foldl_cons, addWarning_collected]
    exact ih _

end Diagnostics

namespace Script

variable {hash : NameHash} {s : Script hash} {limit : Nat}

/-- The script was given these errors, of which it holds those that the limit lets through. -/
def Collects (s : Script hash) (limit : Nat) (es : List ErrorRecord) : Prop :=
  ∃ ws, s.diagnostics = .collected limit es ws

theorem Collects.addErrors {es : List ErrorRecord} (h : s.Collects limit es)
    {t : Script hash} {fs : List ErrorRecord}
    (ht : t.diagnostics = s.diagnostics.addErrors fs) : t.Collects limit (es ++ fs) := by
  obtain ⟨ws, hs⟩ := h
  exact ⟨ws, by rw [ht, hs, Diagnostics.addErrors_collected]⟩

/-- All errors of the script were found in reading it. -/
def CollectsOfReading (s : Script hash) (limit : Nat) : Prop :=
  ∃ es, s.Collects limit es ∧ ∀ e ∈ es, e.code.phase.OfReading

/-- A part of reading finds no other errors. -/
def KeepsOfReading (limit : Nat) (run : Script hash → Script hash) : Prop :=
  ∀ s, s.CollectsOfReading limit → (run s).CollectsOfReading limit

theorem collectsOfReading_start (symbols : Symbols hash) (errorLimit : Nat) :
    (start symbols errorLimit).CollectsOfReading errorLimit :=
  ⟨[], ⟨[], Diagnostics.new_eq_collected errorLimit⟩, nofun⟩

namespace CollectsOfReading

theorem addErrors (h : s.CollectsOfReading limit) {t : Script hash} {fs : List ErrorRecord}
    (ht : t.diagnostics = s.diagnostics.addErrors fs) (hfs : ∀ e ∈ fs, e.code.phase.OfReading) :
    t.CollectsOfReading limit := by
  obtain ⟨es, hcollects, hes⟩ := h
  exact ⟨es ++ fs, hcollects.addErrors ht, List.forall_mem_append.mpr ⟨hes, hfs⟩⟩

theorem addError (h : s.CollectsOfReading limit) {e : ErrorRecord}
    (he : e.code.phase.OfReading) : (s.addError e).CollectsOfReading limit := by
  have hadd : (s.addError e).diagnostics = s.diagnostics.addErrors [e] := rfl
  exact h.addErrors hadd (List.forall_mem_singleton.mpr he)

theorem addLoadError (h : s.CollectsOfReading limit) {code : ErrorCode}
    (hcode : code.phase = .loading) (message : String) (site : Option IncludeSite) :
    (s.addLoadError code message site).CollectsOfReading limit := by
  refine h.addError (.inr (.inr ?_))
  cases site <;> exact hcode

theorem addReport (h : s.CollectsOfReading limit) (file : SourceFile) {r : LineReport}
    (hr : r.OfFile) : (s.addReport file r).CollectsOfReading limit := by
  obtain ⟨es, ⟨ws, hs⟩, hes⟩ := h
  let found := r.errors.map fun e =>
    (ErrorRecord.new e.code e.message).located file (lineNumber e.line)
  have hfound : ∀ e ∈ found, e.code.phase.OfReading := by
    intro e he
    obtain ⟨line, hline, rfl⟩ := List.mem_map.mp he
    exact (hr line hline).imp_right .inl
  obtain ⟨ws', hwarnings⟩ := Diagnostics.foldl_addWarning_collected limit (es ++ found)
    (·.code) (·.message) (fun w => ⟨some file, lineNumber w.line⟩) r.warnings ws
  refine ⟨es ++ found, ⟨ws', ?_⟩, List.forall_mem_append.mpr ⟨hes, hfound⟩⟩
  show r.warnings.foldl _ (s.diagnostics.addErrors found) = _
  rw [hs, Diagnostics.addErrors_collected]
  exact hwarnings

end CollectsOfReading

section Lines

variable {follow : Include → IncludeSite → Script hash → Script hash}

theorem collectsOfReading_readLine (hfollow : ∀ i site, KeepsOfReading limit (follow i site))
    (h : s.CollectsOfReading limit) (file : SourceFile) (index : Nat) {p : FilePass}
    (hp : p.report.OfFile) (line : Line) :
    (readLine follow file index p s line).1.report.OfFile ∧
      (readLine follow file index p s line).2.CollectsOfReading limit := by
  have hreport := FilePass.ofFile_processLine hp s.symbols index line
  rcases hrun : p.processLine s.symbols index line with ⟨processed, q, symbols⟩
  rw [hrun] at hreport
  rcases hline : Include.ofLine? processed with _ | e | i
  · obtain ⟨hread, -⟩ := readLine_of_text follow (fun _ _ _ => []) file hrun hline
    rw [hread]
    exact ⟨hreport, h⟩
  · obtain ⟨hread, -⟩ := readLine_of_faulty follow (fun _ _ _ => []) file hrun hline
    have hs : CollectsOfReading { s with symbols } limit := h
    rw [hread]
    exact ⟨hreport, hs.addError (.inr (.inr rfl))⟩
  · obtain ⟨hread, -⟩ := readLine_of_include follow (fun _ _ _ => []) file hrun hline
    have hs : CollectsOfReading { s with symbols } limit := h
    rw [hread]
    exact ⟨LineReport.ofFile_empty, hfollow i _ _ (hs.addReport file hreport)⟩

theorem keepsOfReading_readLines (hfollow : ∀ i site, KeepsOfReading limit (follow i site))
    (file : SourceFile) (index : Nat) {p : FilePass} (hp : p.report.OfFile) (lines : List Line) :
    KeepsOfReading limit (fun s => readLines follow file index p s lines) := by
  intro s h
  induction lines generalizing index p s with
  | nil => exact h.addReport file (FilePass.ofFile_finish hp)
  | cons line lines ih =>
    obtain ⟨hreport, hline⟩ := collectsOfReading_readLine hfollow h file index hp line
    exact ih (index + 1) hreport _ hline

end Lines

theorem keepsOfReading_paths {load : Path → Script hash → Script hash}
    (hload : ∀ path, KeepsOfReading limit (load path)) (paths : List Path) :
    KeepsOfReading limit (fun s => paths.foldl (fun s path => load path s) s) := by
  induction paths with
  | nil => exact fun s h => h
  | cons path paths ih => exact fun s h => ih _ (hload path s h)

theorem keepsOfReading_follow (tree : FileTree) (base : Path)
    {load : Path → Script hash → Script hash} (hload : ∀ path, KeepsOfReading limit (load path))
    (i : Include) (site : IncludeSite) : KeepsOfReading limit (follow tree base load i site) := by
  obtain ⟨paths, -, -, hfollow⟩ | ⟨e, message, -, -, hfollow⟩ :=
    Outline.follow_cases tree base load i site
  · rw [hfollow]
    exact keepsOfReading_paths hload paths
  · rw [hfollow]
    exact fun s h => h.addLoadError rfl message site

theorem keepsOfReading_load (tree : FileTree) (root : Place) (room : Nat)
    (site : Option IncludeSite) (path : Path) :
    KeepsOfReading limit (load tree root room site path : Script hash → Script hash) := by
  induction room generalizing site path with
  | zero => exact fun s h => h.addLoadError rfl _ _
  | succ room ih =>
    intro s h
    unfold load
    rcases tree.locate path with e | place
    · exact h.addLoadError rfl _ _
    dsimp only
    split
    · exact h
    have hseen : CollectsOfReading
        { s with seen := hash (String.ofList place.path) :: s.seen } limit := h
    rcases tree.readText place with e | text
    · exact hseen.addLoadError rfl _ _
    have hfollow (i : Include) (site : IncludeSite) :=
      keepsOfReading_follow tree (Place.path place.dropLast) (ih (some site)) i site
    exact keepsOfReading_readLines hfollow _ 0 LineReport.ofFile_empty _ _ hseen

/-- Reading a script finds faults of tokens, of preprocessing and of loading. -/
theorem read_collectsOfReading (tree : FileTree) (path : Path) (symbols : Symbols hash)
    (errorLimit : Nat) :
    ((start symbols errorLimit).read tree path).CollectsOfReading errorLimit :=
  keepsOfReading_load tree (rootOf tree path) maxIncludeDepth none path _
    (collectsOfReading_start symbols errorLimit)

end Script
end ScriptFront
