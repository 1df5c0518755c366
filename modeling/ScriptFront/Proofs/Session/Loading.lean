import ScriptFront.Proofs.Session.Analysis
import Mathlib

/-! What a session has of a script that it has loaded: the text and the files of its outline, the place
of each line, and the errors, with the places of those that tokenizing found. -/
namespace ScriptFront.Session

variable {hash : NameHash}

/-- Other sessions share the names, and types are added between two scripts. -/
def withTables (s : Session hash) (types : Catalogue hash) (names : Interner hash) :
    Session hash :=
  { s with types, script := s.script.withNames names }

/-- Sessions as they come about by loading scripts, whatever these were. -/
inductive Reachable : Session hash → Prop
  | new (options : Options hash) : Reachable (new options)
  | load {s : Session hash} (r : Reachable s) (tree : FileTree) (path : Path) :
      Reachable (s.load tree path).session
  | withTables {s : Session hash} (r : Reachable s) (types : Catalogue hash)
      (names : Interner hash) : Reachable (s.withTables types names)

/-- What a session starts a script with. -/
def symbols (s : Session hash) : Symbols hash := ⟨s.script.symbols.names, s.options.definitions⟩

/-- The script at a path, as far as it is read before it is tokenized. -/
def readScript (s : Session hash) (tree : FileTree) (path : Path) : Script hash :=
  (Script.start s.symbols s.options.errorLimit).read tree path

theorem reset_of_held {s : Session hash} {m : Multiset Handle} (h : s.tokens.Held m) :
    ∃ pool, pool.HeldBy m ∧ s.reset = (.ok (), { s with
      script := .start s.symbols s.options.errorLimit
      tokens := ⟨pool, []⟩
      featureLevel := s.options.featureLevel }) := by
  obtain ⟨pool, hclear, b⟩ := TokenLines.clear_cases h
  refine ⟨pool, b, ?_⟩
  simp only [reset, hclear, symbols]

/-- Writing the text can only add an error. -/
theorem writeCombined_eq (s : Session hash) (tree : FileTree) :
    ∃ es, (∀ e ∈ es, e.code = .unwritableFile) ∧
      (s.writeCombined tree).1 = { s with script := s.script.addErrors es } := by
  unfold writeCombined
  split
  · exact ⟨[], by simp, rfl⟩
  · split
    · exact ⟨[], by simp, rfl⟩
    · exact ⟨[ErrorRecord.new .unwritableFile _], by simp [ErrorRecord.new], rfl⟩

theorem writeCombined_cases (s : Session hash) (tree : FileTree) :
    ∃ es, (∀ e ∈ es, e.code = .unwritableFile) ∧
      (s.writeCombined tree).1.script = s.script.addErrors es ∧
      (s.writeCombined tree).1.tokens = s.tokens := by
  obtain ⟨es, hes, hwrite⟩ := writeCombined_eq s tree
  exact ⟨es, hes, by rw [hwrite], by rw [hwrite]⟩

/-- What loading answers after the analysis. -/
def verdict (result : Except PoolError Unit) (d : Diagnostics) : Except LoadError Unit :=
  match result with
  | .error e => .error (.pool e)
  | .ok _ =>
    match d.errorProof? with
    | some p => .error (.failed p)
    | none => .ok ()

theorem load_of_written {s t u : Session hash} {tree written : FileTree} {path : Path}
    (hreset : s.reset = (.ok (), t))
    (hwrite : { t with script := t.script.read tree path }.writeCombined tree = (u, written)) :
    s.load tree path =
      ⟨verdict u.analyse.1 u.analyse.2.script.diagnostics, u.analyse.2, written⟩ := by
  unfold load
  simp only [hreset, hwrite]
  rcases u.analyse with ⟨e | _, v⟩
  · rfl
  · rcases herror : v.script.diagnostics.errorProof? with _ | p
    · simp only [verdict, herror]
    · simp only [verdict, herror]

/-- Where the reset does not fail, loading ends with the analysis of what was read. -/
theorem load_of_reset {s t : Session hash} (h : s.reset = (.ok (), t)) (tree : FileTree)
    (path : Path) :
    ∃ (written : List ErrorRecord) (read : Session hash),
      (∀ e ∈ written, e.code = .unwritableFile) ∧
      read.script = (t.script.read tree path).addErrors written ∧ read.tokens = t.tokens ∧
      (s.load tree path).session = read.analyse.2 ∧
      ∀ e, read.analyse.1 = .error e → (s.load tree path).result = .error (.pool e) := by
  obtain ⟨written, hwritten, hscript, htokens⟩ :=
    writeCombined_cases { t with script := t.script.read tree path } tree
  rcases hwrite : { t with script := t.script.read tree path }.writeCombined tree with ⟨u, tree'⟩
  rw [hwrite] at hscript htokens
  rw [load_of_written h hwrite]
  exact ⟨written, u, hwritten, hscript, htokens, rfl, fun e he => by rw [he]; rfl⟩

theorem load_cases {s : Session hash} {m : Multiset Handle} (b : s.tokens.Held m)
    (tree : FileTree) (path : Path) :
    ∃ names written found pragmas, (∀ e ∈ written, e.code = .unwritableFile) ∧
      (∀ e ∈ pragmas, e.code = .unsupportedFeatureLevel) ∧
      (s.load tree path).session.script =
        ((s.readScript tree path).withNames names).addErrors (written ++ found ++ pragmas) ∧
      (found = ReadLine.lexicalErrors (s.readScript tree path).symbols.names
          (Outline.ofScript tree path s.symbols).1.lines ∨
        found = [] ∧ ∃ e, (s.load tree path).result = .error (.pool e)) ∧
      ∃ m', (s.load tree path).session.tokens.Held m' := by
  obtain ⟨pool, b', hreset⟩ := reset_of_held b
  obtain ⟨written, read, hwritten, hscript, htokens, hload, hresult⟩ :=
    load_of_reset hreset tree path
  obtain ⟨-, hreal⟩ := Script.read_realizes tree path s.symbols s.options.errorLimit
  have hreal' : read.script.Realizes (Outline.ofScript tree path s.symbols).1 := by
    rw [hscript]
    exact hreal.addErrors fun e he => by rw [hwritten e he]; decide
  obtain ⟨names, found, pragmas, hpragmas, hanalyse, hfound, hheld⟩ := analyse_cases hreal'
  rw [hload]
  refine ⟨names, written, found, pragmas, hwritten, hpragmas, ?_, ?_, hheld m ?_⟩
  · rw [hanalyse, hscript, List.append_assoc, Script.addErrors_append _ written]
    rfl
  · refine hfound.imp (fun h => ?_) fun ⟨hnil, e, he⟩ => ⟨hnil, e, hresult e he⟩
    rw [h, hscript]
    rfl
  · rw [htokens]
    simpa [TokenLines.Held] using b'

theorem Reachable.held {s : Session hash} (r : s.Reachable) : ∃ m, s.tokens.Held m := by
  induction r with
  | new options => exact ⟨0, TokenLines.held_empty⟩
  | load r tree path ih =>
    obtain ⟨m, b⟩ := ih
    obtain ⟨-, -, -, -, -, -, -, -, hheld⟩ := load_cases b tree path
    exact hheld
  | withTables r types names ih => exact ih

/-- A loaded script shows its outline: its text and its files, the places of the lines, and the lines
that the errors of tokenizing are in. No line has a number that does not fit into 32 bits; a line with
a greater index is given the greatest number. -/
structure Shows (s : Session hash) (o : Outline) : Prop where
  lines : s.script.lines.toList = o.lines.map ReadLine.text
  files : s.script.files.toList = o.files.map ReadFile.file
  files_once : s.script.files.toList.Nodup
  translate : ∀ k l, o.lines[k]? = some l → k < UInt32.size →
    s.translate k = .ok (l.origin.file, min l.origin.index maxLine)
  lexical : ∀ e ∈ s.script.diagnostics.errors, e.code.phase = .lexical →
    (∃ l ∈ o.lines, l.Reports hash l.text e) ∨ ∃ l ∈ o.allLines, l.ReportsExpression hash e

theorem shows_of_script {s : Session hash} {read : Script hash} {o : Outline}
    (h : read.Realizes o) (hfiles : (o.files.map fun f => hash f.file.path).Nodup)
    {names : Interner hash} {es : List ErrorRecord}
    (hs : s.script = (read.withNames names).addErrors es)
    (hes : ∀ e ∈ es, e.code.phase = .lexical → ∃ l ∈ o.lines, l.Reports hash l.text e) :
    s.Shows o where
  lines := by rw [hs]; exact h.lines
  files := by rw [hs]; exact h.files
  files_once := by
    have hmap : (s.script.files.toList.map fun file => hash file.path) =
        o.files.map fun f => hash f.file.path := by
      rw [hs, show ((read.withNames names).addErrors es).files.toList = _ from h.files,
        List.map_map]
      rfl
    exact List.Nodup.of_map _ (hmap ▸ hfiles)
  translate k l hl hk := by
    have hmin : min k maxLine = k := by
      unfold maxLine
      omega
    rw [translate, hmin, hs]
    exact LineMap.translate_of_origin? h.sorted (h.origins k l hl)
  lexical e he hcode := by
    rw [hs] at he
    rcases Diagnostics.mem_errors_addErrors he with he | he
    · exact .inr (h.expressions e he hcode)
    · exact .inl (hes e he hcode)

/-- Whatever was loaded before, a script that is loaded shows what it takes in: each line of each of its
files is once in the outline, with what preprocessing made of it, and all lines that are not followed
are the text. Unless the pool is full, tokenizing reports the errors of all lines. -/
theorem Reachable.load_shows {s : Session hash} (r : s.Reachable) (tree : FileTree) (path : Path) :
    let taken := Outline.ofScript tree path s.symbols
    let loaded := s.load tree path
    Outline.Sound tree (Script.rootOf tree path) [] ⟨s.symbols, []⟩ taken ∧
      loaded.session.Shows taken.1 ∧
      ((∀ e, loaded.result ≠ .error (.pool e)) → ∃ before after,
        loaded.session.script.diagnostics = (Diagnostics.addErrors before
          (ReadLine.lexicalErrors taken.2.symbols.names taken.1.lines)).addErrors after) := by
  intro taken loaded
  obtain ⟨m, b⟩ := r.held
  have hsound : Outline.Sound tree (Script.rootOf tree path) [] ⟨s.symbols, []⟩ taken :=
    Outline.sound_ofPath tree _ maxIncludeDepth path _
  obtain ⟨hprogress, hreal⟩ := Script.read_realizes tree path s.symbols s.options.errorLimit
  have hnames : (s.readScript tree path).symbols.names = taken.2.symbols.names :=
    congrArg (fun t => t.symbols.names) hprogress
  obtain ⟨names, written, found, pragmas, hwritten, hpragmas, hscript, hfound, -⟩ :=
    load_cases b tree path
  rw [hnames] at hfound
  refine ⟨hsound, shows_of_script hreal hsound.files_once hscript fun e he hcode => ?_,
    fun hresult => ?_⟩
  · simp only [List.mem_append] at he
    obtain (he | he) | he := he
    · rw [hwritten e he] at hcode
      cases hcode
    · obtain rfl | ⟨rfl, -⟩ := hfound
      · exact ReadLine.reports_of_mem_lexicalErrors he
      · cases he
    · rw [hpragmas e he] at hcode
      cases hcode
  · obtain rfl | ⟨-, e, he⟩ := hfound
    · refine ⟨(s.readScript tree path).diagnostics.addErrors written, pragmas, ?_⟩
      rw [hscript, Script.addErrors_append, Script.addErrors_append]
      rfl
    · exact absurd he (hresult e)

/-- Two scripts that take in each other. -/
def includeCycle : FileTree where
  entries := [(["s".toList], .directory),
    (["s".toList, "a.lemon".toList], .file "one\n#include \"b.lemon\"\nthree".toUTF8),
    (["s".toList, "b.lemon".toList], .file "include a\ntwo".toUTF8)]
  workingDirectory := ["s".toList]

theorem load_shows_includeCycle :
    (new .default : Session .standard).Reachable ∧
      let loaded := ((new .default : Session .standard).load includeCycle "a.lemon".toList).session
      let a : SourceFile := ⟨"/s/a.lemon", "a.lemon"⟩
      let b : SourceFile := ⟨"/s/b.lemon", "b.lemon"⟩
      loaded.script.files.toList = [a, b] ∧
        loaded.script.lines.toList = ["one".toList, "two".toList, "three".toList] ∧
        loaded.translate 0 = .ok (a, 0) ∧ loaded.translate 1 = .ok (b, 1) ∧
        loaded.translate 2 = .ok (a, 2) := by
  have r : (new .default : Session .standard).Reachable := .new .default
  obtain ⟨-, h, -⟩ := r.load_shows includeCycle "a.lemon".toList
  have htaken : ∀ symbols : Symbols .standard,
      (Outline.ofScript includeCycle "a.lemon".toList symbols).1 =
        { lines :=
            [⟨⟨⟨"/s/a.lemon", "a.lemon"⟩, 0⟩, "one".toList, "one".toList⟩,
             ⟨⟨⟨"/s/b.lemon", "b.lemon"⟩, 1⟩, "two".toList, "two".toList⟩,
             ⟨⟨⟨"/s/a.lemon", "a.lemon"⟩, 2⟩, "three".toList, "three".toList⟩]
          followed :=
            [⟨⟨⟨"/s/a.lemon", "a.lemon"⟩, 1⟩, "#include \"b.lemon\"".toList,
              "#include \"b.lemon\"".toList⟩,
             ⟨⟨⟨"/s/b.lemon", "b.lemon"⟩, 0⟩, "include a".toList, "include a".toList⟩]
          files :=
            [⟨⟨"/s/a.lemon", "a.lemon"⟩,
              ["one".toList, "#include \"b.lemon\"".toList, "three".toList]⟩,
             ⟨⟨"/s/b.lemon", "b.lemon"⟩, ["include a".toList, "two".toList]⟩] } := by
    intro symbols
    cbv
  rw [htaken] at h
  exact ⟨r, h.files, h.lines, h.translate 0 _ rfl (by decide), h.translate 1 _ rfl (by decide),
    h.translate 2 _ rfl (by decide)⟩

end ScriptFront.Session
