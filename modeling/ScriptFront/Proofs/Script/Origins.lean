import ScriptFront.Proofs.Preprocess.Findings
import ScriptFront.Proofs.Script.Outline

/-! Reading a script makes the text of its outline, and a line map that leads from each line of the text
to the place where the outline has it from. Errors in the tokens of directives are reported at the line
of the directive. -/
namespace ScriptFront

variable {hash : NameHash}

/-- An error of tokenizing, as it is reported at a line of a file. -/
def LexError.record (e : LexError) (l : FileLine) : ErrorRecord :=
  (ErrorRecord.new e.cause.code e.cause.message).located l.file (lineNumber l.index)

namespace ReadLine

/-- The record is that of an error in the tokens of a text that the line holds. -/
def Reports (hash : NameHash) (l : ReadLine) (text : List Char) (e : ErrorRecord) : Prop :=
  ∃ (names : Interner hash) (lex : LexError), lex ∈ (tokenize names text).errors ∧
    e = lex.record l.origin

/-- The text is that of the expression in a directive line. -/
def ReportsExpression (hash : NameHash) (l : ReadLine) (e : ErrorRecord) : Prop :=
  ∃ text ∈ Directive.expressionOf? l.source, l.Reports hash text e

end ReadLine

namespace Diagnostics

theorem mem_errors_addError {d : Diagnostics} {e e' : ErrorRecord}
    (h : e' ∈ (d.addError e).errors) : e' ∈ d.errors ∨ e' = e := by
  unfold addError at h
  split at h
  · exact .inl h
  · simpa using h

theorem mem_errors_addErrors {d : Diagnostics} {es : List ErrorRecord} {e : ErrorRecord}
    (h : e ∈ (d.addErrors es).errors) : e ∈ d.errors ∨ e ∈ es := by
  induction es generalizing d with
  | nil => exact .inl h
  | cons e' es ih =>
    rcases ih h with h | h
    · rcases mem_errors_addError h with h | rfl
      · exact .inl h
      · exact .inr List.mem_cons_self
    · exact .inr (List.mem_cons_of_mem _ h)

theorem errors_foldl_addWarning (d : Diagnostics) (code : LineWarning → WarningCode)
    (message : LineWarning → String) (site : LineWarning → WarningSite) (ws : List LineWarning) :
    (ws.foldl (fun d w => d.addWarning (code w) (message w) (site w)) d).errors = d.errors := by
  induction ws generalizing d with
  | nil => rfl
  | cons w ws ih => rw [List.foldl_cons, ih, errors_addWarning]

end Diagnostics

/-- Each error in tokens that was found in a file is one of a directive, in a line of the outline. -/
def LineReport.Traced (hash : NameHash) (r : LineReport) (file : SourceFile) (o : Outline) : Prop :=
  ∀ e ∈ r.errors, e.code.phase = .lexical → ∃ l ∈ o.allLines, l.origin = ⟨file, e.line⟩ ∧
    ∃ text ∈ Directive.expressionOf? l.source, e.IsLexical hash text

namespace LineReport.Traced

variable {p q : FilePass} {file : SourceFile} {o : Outline}

theorem start (hash : NameHash) (file : SourceFile) (o : Outline) :
    FilePass.start.report.Traced hash file o := by simp [Traced, FilePass.start, LineReport.empty]

/-- A line comes to the outline together with what is found in it. -/
theorem line (h : p.report.Traced hash file o) {l : ReadLine} {a : Outline} (hl : l ∈ a.allLines)
    {index : Nat} (horigin : l.origin = ⟨file, index⟩)
    (hq : p.Finds hash index (Directive.expressionOf? l.source) q) :
    q.report.Traced hash file (o ++ a) := by
  obtain ⟨es, hes, hnew⟩ := hq
  intro e he hcode
  rw [hes] at he
  rcases List.mem_append.mp he with he | he
  · obtain ⟨l', hl', hrest⟩ := h e he hcode
    exact ⟨l', Outline.mem_allLines_append.mpr (.inl hl'), hrest⟩
  · obtain ⟨rfl, hlex⟩ := hnew e he
    exact ⟨l, Outline.mem_allLines_append.mpr (.inr hl), horigin, hlex hcode⟩

/-- What is found at the end of a file is not in its tokens. -/
theorem finish (h : p.report.Traced hash file o) : p.finish.Traced hash file o := by
  intro e he hcode
  simp only [FilePass.finish, LineReport.addErrors, List.mem_append, List.mem_map] at he
  obtain he | ⟨b, -, rfl⟩ | ⟨line, -, rfl⟩ := he
  · exact h e he hcode
  · cases hcode
  · cases hcode

end LineReport.Traced

namespace Script

def progress (s : Script hash) : Progress hash := ⟨s.symbols, s.seen⟩

/-- What was read so far has the outline `o`. -/
structure Realizes (s : Script hash) (o : Outline) : Prop where
  lines : s.lines.toList = o.lines.map ReadLine.text
  files : s.files.toList = o.files.map ReadFile.file
  sorted : s.lineMap.Sorted
  starts : ∀ i ∈ s.lineMap.intervals.toList, i.start ≤ s.lines.size
  origins : ∀ k l, o.lines[k]? = some l → s.lineMap.origin? k = some l.origin
  expressions : ∀ e ∈ s.diagnostics.errors, e.code.phase = .lexical →
    ∃ l ∈ o.allLines, l.ReportsExpression hash e

/-- After what has the outline `o`, a part was read that has the outline `part.1`. -/
def Reaches (s : Script hash) (o : Outline) (part : Outline × Progress hash) : Prop :=
  s.progress = part.2 ∧ s.Realizes (o ++ part.1)

/-- A part of reading has the outline that `part` tells, wherever it begins. -/
def Follows (run : Script hash → Script hash) (part : Progress hash → Outline × Progress hash) :
    Prop :=
  ∀ s o, s.Realizes o → (run s).Reaches o (part s.progress)

theorem realizes_start (symbols : Symbols hash) (errorLimit : Nat) :
    (start symbols errorLimit).Realizes .empty := by
  refine ⟨rfl, rfl, LineMap.sorted_empty, ?_, ?_, ?_⟩ <;>
    simp [start, Outline.empty, LineMap.empty, Diagnostics.new]

namespace Realizes

variable {s : Script hash} {o : Outline}

theorem size_lines (h : s.Realizes o) : s.lines.size = o.lines.length := by
  rw [← Array.length_toList, h.lines, List.length_map]

theorem with_symbols (h : s.Realizes o) (symbols : Symbols hash) :
    Realizes { s with symbols } o :=
  ⟨h.lines, h.files, h.sorted, h.starts, h.origins, h.expressions⟩

theorem with_seen (h : s.Realizes o) (seen : List UInt64) : Realizes { s with seen } o :=
  ⟨h.lines, h.files, h.sorted, h.starts, h.origins, h.expressions⟩

theorem addError (h : s.Realizes o) {e : ErrorRecord} (he : e.code.phase ≠ .lexical) :
    (s.addError e).Realizes o where
  lines := h.lines
  files := h.files
  sorted := h.sorted
  starts := h.starts
  origins := h.origins
  expressions e' he' hcode := by
    rcases Diagnostics.mem_errors_addError he' with he' | rfl
    · exact h.expressions e' he' hcode
    · exact absurd hcode he

theorem addLoadError (h : s.Realizes o) {code : ErrorCode} (hcode : code.phase ≠ .lexical)
    (message : String) (site : Option IncludeSite) :
    (s.addLoadError code message site).Realizes o := by
  refine h.addError ?_
  cases site <;> exact hcode

/-- Each error in the tokens of a directive is reported at the line of the directive. -/
theorem addReport (h : s.Realizes o) {file : SourceFile} {r : LineReport}
    (hr : r.Traced hash file o) : (s.addReport file r).Realizes o where
  lines := h.lines
  files := h.files
  sorted := h.sorted
  starts := h.starts
  origins := h.origins
  expressions e he hcode := by
    unfold Script.addReport at he
    rw [Diagnostics.errors_foldl_addWarning] at he
    rcases Diagnostics.mem_errors_addErrors he with he | he
    · exact h.expressions e he hcode
    · obtain ⟨found, hfound, rfl⟩ := List.mem_map.mp he
      obtain ⟨l, hl, horigin, text, htext, names, lex, hlex, heq⟩ := hr found hfound hcode
      refine ⟨l, hl, text, htext, names, lex, hlex, ?_⟩
      rw [heq, LexError.record, horigin]
      rfl

theorem reaches (h : s.Realizes o) : s.Reaches o (.empty, s.progress) := ⟨rfl, by simpa using h⟩

theorem expressions_append (h : s.Realizes o) (a : Outline) : ∀ e ∈ s.diagnostics.errors,
    e.code.phase = .lexical → ∃ l ∈ (o ++ a).allLines, l.ReportsExpression hash e :=
  fun e he hcode =>
    let ⟨l, hl, hrest⟩ := h.expressions e he hcode
    ⟨l, Outline.mem_allLines_append.mpr (.inl hl), hrest⟩

theorem pushLine (h : s.Realizes o) {l : ReadLine}
    (hnext : s.lineMap.origin? s.lines.size = some l.origin) :
    (s.pushLine l.text).Realizes (o ++ .ofLine l) where
  lines := by simp [Script.pushLine, Outline.ofLine, h.lines]
  files := by simpa [Script.pushLine, Outline.ofLine] using h.files
  sorted := h.sorted
  starts i hi := by
    have := h.starts i hi
    simp only [Script.pushLine, Array.size_push]
    omega
  origins k l' hl' := by
    rw [Outline.lines_append, List.getElem?_append] at hl'
    split at hl'
    · exact h.origins k l' hl'
    · have hk : k - o.lines.length = 0 ∧ l = l' := by
        simpa [Outline.ofLine, List.getElem?_singleton] using hl'
      obtain ⟨hk, rfl⟩ := hk
      have : k = s.lines.size := by rw [h.size_lines]; omega
      exact this ▸ hnext
  expressions := h.expressions_append _

theorem follow (h : s.Realizes o) (l : ReadLine) : s.Realizes (o ++ .ofFollowed l) :=
  ⟨by simpa [Outline.ofFollowed] using h.lines, by simpa [Outline.ofFollowed] using h.files,
    h.sorted, h.starts, by simpa [Outline.ofFollowed] using h.origins, h.expressions_append _⟩

theorem startFile (h : s.Realizes o) (f : ReadFile) :
    Realizes { s with files := s.files.push f.file } (o ++ .ofFile f) :=
  ⟨by simpa [Outline.ofFile] using h.lines, by simp [Outline.ofFile, h.files],
    h.sorted, h.starts, by simpa [Outline.ofFile] using h.origins, h.expressions_append _⟩

/-- A new interval begins behind all lines, so it changes the origin of none of them. -/
theorem startInterval (h : s.Realizes o) (file : SourceFile) (offset : Nat) :
    (s.startInterval file offset).Realizes o where
  lines := h.lines
  files := h.files
  sorted := h.sorted.push h.starts
  starts i hi := (LineMap.mem_push hi).elim (h.starts i) fun heq => heq ▸ Nat.le_refl _
  origins k l hl := by
    have hk : k < s.lines.size := by
      rw [h.size_lines]
      exact (List.getElem?_eq_some_iff.mp hl).1
    exact (LineMap.origin?_push_of_lt hk).trans (h.origins k l hl)
  expressions := h.expressions

end Realizes

theorem origin?_startInterval (s : Script hash) (file : SourceFile) (offset : Nat) :
    (s.startInterval file offset).lineMap.origin? s.lines.size = some ⟨file, offset⟩ :=
  LineMap.origin?_push_self ..

/-- The line after an own line of a file comes next in the file. -/
theorem origin?_pushLine {s : Script hash} {o : Outline} (h : s.Realizes o) {at_ : FileLine}
    (hnext : s.lineMap.origin? s.lines.size = some at_) (line : Line) :
    (s.pushLine line).lineMap.origin? (s.pushLine line).lines.size =
      some ⟨at_.file, at_.index + 1⟩ := by
  simp only [pushLine, Array.size_push]
  exact LineMap.origin?_succ h.starts hnext

/-- Two parts of reading, one after the other. -/
theorem Reaches.append {s : Script hash} {o a b : Outline} {t : Progress hash}
    (h : s.Reaches (o ++ a) (b, t)) : s.Reaches o (a ++ b, t) :=
  ⟨h.1, by rw [← Outline.append_assoc]; exact h.2⟩

/-- The lines of a file from the given index on. The next line of the text has the place of the first of
them, which each line hands on to the line after it. -/
theorem readLines_reaches {follow : Include → IncludeSite → Script hash → Script hash}
    {followed : Include → Progress hash → Outline × Progress hash}
    (hfollow : ∀ i site, Follows (follow i site) (followed i)) {file : SourceFile} {index : Nat}
    (p : FilePass) {s : Script hash} {o : Outline} (h : s.Realizes o)
    (hnext : s.lineMap.origin? s.lines.size = some ⟨file, index⟩)
    (hp : p.report.Traced hash file o) (lines : List Line) :
    (readLines follow file index p s lines).Reaches o
      (Outline.ofLines followed file index p s.progress lines) := by
  induction lines generalizing index p s o with
  | nil => exact (h.addReport hp.finish).reaches
  | cons source lines ih =>
    have hfinds := FilePass.finds_processLine p s.symbols index source
    unfold readLines readLine Outline.ofLines
    rw [show s.progress.symbols = s.symbols from rfl]
    rcases hrun : p.processLine s.symbols index source with ⟨processed, q, symbols⟩
    rw [hrun] at hfinds
    let l : ReadLine := ⟨⟨file, index⟩, source, processed⟩
    have hs := h.with_symbols symbols
    have hown : q.report.Traced hash file (o ++ .ofLine l) :=
      hp.line List.mem_cons_self rfl hfinds
    dsimp only
    rcases hline : Include.ofLine? processed with _ | e | i
    · obtain ⟨hl, htext⟩ := ReadLine.own_of_no_include (l := l) hline
      have hpush := hs.pushLine (l := l) hnext
      rw [htext] at hpush
      rw [hl]
      exact (ih q hpush (origin?_pushLine hs hnext _) hown).append
    · obtain ⟨hl, htext⟩ := ReadLine.own_of_faulty (l := l) hline
      have he := hs.addError (e := (ErrorRecord.new .malformedInclude e.message).located file
        (lineNumber index)) (show ErrorCode.phase .malformedInclude ≠ .lexical by decide)
      have hpush := he.pushLine (l := l) hnext
      rw [htext] at hpush
      rw [hl]
      exact (ih q hpush (origin?_pushLine he hnext _) hown).append
    · have hl : l.include? = some i := ReadLine.include?_eq_some_iff.mpr hline
      -- the report goes to the script before the include is followed, so its lines are looked for
      -- in the outline up to this line
      have htaken : q.report.Traced hash file (o ++ .ofFollowed l) :=
        hp.line List.mem_cons_self rfl hfinds
      have hinner := (hfollow i ⟨file, lineNumber index⟩ _ _
        ((hs.follow l).addReport htaken)).append
      have hrest := ih q.takeReport.2 (hinner.2.startInterval file (index + 1))
        (origin?_startInterval ..) (.start hash file _)
      rw [show progress (startInterval ..) = _ from hinner.1] at hrest
      rw [hl]
      exact hrest.append

/-- Files that are read one after the other. -/
theorem foldl_follows {load : Path → Script hash → Script hash}
    {loaded : Path → Progress hash → Outline × Progress hash}
    (hload : ∀ path, Follows (load path) (loaded path)) (paths : List Path) :
    Follows (fun s => paths.foldl (fun s path => load path s) s)
      (fun t => Outline.ofPaths loaded t paths) := by
  induction paths with
  | nil => exact fun s o h => h.reaches
  | cons path paths ih =>
    intro s o h
    obtain ⟨hprogress, hfirst⟩ := hload path s o h
    have hrest := ih _ _ hfirst
    rw [hprogress] at hrest
    exact hrest.append

theorem follow_follows {tree : FileTree} {base : Path} {load : Path → Script hash → Script hash}
    {loaded : Path → Progress hash → Outline × Progress hash}
    (hload : ∀ path, Follows (load path) (loaded path)) (i : Include) (site : IncludeSite) :
    Follows (Script.follow tree base load i site)
      (fun t => Outline.ofPaths loaded t (Outline.targets tree base i)) := by
  obtain ⟨paths, -, htargets, hfollow⟩ | ⟨e, message, -, htargets, hfollow⟩ :=
    Outline.follow_cases tree base load i site
  · rw [htargets, hfollow]
    exact foldl_follows hload paths
  · rw [htargets, hfollow]
    exact fun s o h => (h.addLoadError (by decide) ..).reaches

theorem load_follows (tree : FileTree) (root : Place) (room : Nat) (site : Option IncludeSite)
    (path : Path) :
    Follows (load tree root room site path : Script hash → Script hash)
      (Outline.ofPath tree root room path) := by
  induction room generalizing site path with
  | zero => exact fun s o h => (h.addLoadError (by decide) ..).reaches
  | succ room ih =>
    intro s o h
    unfold load Outline.ofPath
    rcases tree.locate path with e | place
    · exact (h.addLoadError (by decide) ..).reaches
    dsimp only
    rw [show s.progress.seen = s.seen from rfl]
    split
    · exact h.reaches
    have hs := h.with_seen (hash (String.ofList place.path) :: s.seen)
    rcases tree.readText place with e | text
    · exact (hs.addLoadError (by decide) ..).reaches
    let f : ReadFile := ⟨.at root place, Text.lines text.toList⟩
    have hfile := (hs.startFile f).startInterval f.file 0
    exact (readLines_reaches (fun i site => follow_follows (ih (some site)) i site) .start hfile
      (origin?_startInterval ..) (.start hash _ _) f.lines).append

/-- The script that is read has the text of its outline, and each line of it the place that the outline
has it from. -/
theorem read_realizes (tree : FileTree) (path : Path) (symbols : Symbols hash) (errorLimit : Nat) :
    ((start symbols errorLimit).read tree path).progress =
        (Outline.ofScript tree path symbols).2 ∧
      ((start symbols errorLimit).read tree path).Realizes
        (Outline.ofScript tree path symbols).1 :=
  load_follows tree (rootOf tree path) maxIncludeDepth none path _ _
    (realizes_start symbols errorLimit)

end ScriptFront.Script
