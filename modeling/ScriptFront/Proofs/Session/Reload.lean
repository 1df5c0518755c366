import ScriptFront.Proofs.Session.Loading
import ScriptFront.Proofs.Session.Lockstep

/-! What a session keeps of the scripts that it has loaded, its names and its pool, is not seen when
it loads another one. -/
namespace ScriptFront

variable {hash : NameHash}

namespace Script

theorem addLineErrors_cases (s : Script hash) (es : List LineError) :
    ∃ found, s.addLineErrors es = s.addErrors found := by
  induction es generalizing s with
  | nil => exact ⟨[], rfl⟩
  | cons e es ih =>
    obtain ⟨first, -, hfirst⟩ := s.addErrorAt_cases (e := .new e.code e.message) rfl e.line
    obtain ⟨rest, hrest⟩ := ih (s.addErrors first)
    refine ⟨first ++ rest, ?_⟩
    rw [addErrors_append, ← hrest, ← hfirst]
    rfl

end Script

namespace Session

/-- The analysis changes nothing in the script but the names and the errors. -/
theorem script_analyse (s : Session hash) :
    ∃ names es, s.analyse.2.script = (s.script.withNames names).addErrors es := by
  have htokenize : ∃ names es,
      s.tokenizeLines.2.script = (s.script.withNames names).addErrors es := by
    rw [tokenizeLines_eq]
    dsimp only
    split
    · exact ⟨_, [], rfl⟩
    · obtain ⟨es, hes⟩ := Script.addLineErrors_cases (s.script.withNames _) _
      exact ⟨_, es, hes⟩
  obtain ⟨names, es, hscript⟩ := htokenize
  unfold analyse
  rcases hrun : s.tokenizeLines with ⟨_ | _, s'⟩ <;> rw [hrun] at hscript
  · exact ⟨names, es, hscript⟩
  · obtain ⟨⟨pragmas, -, hpragmas⟩, -⟩ := pragmaStep_applyLines s' 0 s'.tokens.lists.length
    exact ⟨names, es ++ pragmas, by rw [Script.addErrors_append, ← hscript, ← hpragmas]⟩

/-- The session after the script at a path was read, where the lines before left `pool`. -/
def reading (s : Session hash) (pool : TokenPool) (tree : FileTree) (path : Path) : Session hash :=
  { s with
    script := s.readScript tree path
    tokens := ⟨pool, []⟩
    featureLevel := s.options.featureLevel }

variable {o : Options hash} {W : Set String} {r : Interner hash} {m m' : Multiset Handle}
  {s t : Session hash}

/-- What a session has of the scripts before: the options are still `o`, for the texts `W` the names
are those of `r`, and the pool has the tokens `m` that no line holds. -/
structure Carries (o : Options hash) (W : Set String) (r : Interner hash) (m : Multiset Handle)
    (s : Session hash) : Prop where
  options : s.options = o
  names : s.script.symbols.names.Agrees W r
  stores : ∃ lines, s.tokens.Stores m lines

/-- The texts that loading the script at a path enters in the table of names: those of the
expressions that are evaluated, and those of the lines that are tokenized, as far as the pool has
room for their tokens. -/
def offered (s : Session hash) (tree : FileTree) (path : Path) : List String :=
  let read := s.readScript tree path
  (Script.stepsOfScript tree path (.start s.symbols s.options.errorLimit)).flatMap
      ReadStep.offered ++
    TokenLines.offered s.reset.2.tokens.pool read.symbols.names read.lines.toList

theorem Alike.writeCombined {lines : List (List Token)} (h : s.Alike o W r m m' lines t)
    (tree : FileTree) : (t.writeCombined tree).2 = (s.writeCombined tree).2 ∧
      (s.writeCombined tree).1.Alike o W r m m' lines (t.writeCombined tree).1 := by
  obtain ⟨symbols, hscript, hsymbols⟩ := h.script
  have htext : t.script.text = s.script.text := by
    rw [hscript]
    rfl
  unfold Session.writeCombined
  rw [h.options, h.options', htext]
  split
  · exact ⟨rfl, h⟩
  · split
    · exact ⟨rfl, h⟩
    · refine ⟨rfl, rfl, rfl, ⟨symbols, ?_, hsymbols⟩, h.featureLevel, h.left, h.right⟩
      rw [hscript]
      rfl

/-- Of the script before only the tokens `m` are left, which no line held. -/
theorem reset_of_stores {lines : List (List Token)} (b : s.tokens.Stores m lines) :
    ∃ pool, s.reset = (.ok (), { s with
        script := .start s.symbols s.options.errorLimit
        tokens := ⟨pool, []⟩
        featureLevel := s.options.featureLevel }) ∧
      TokenLines.Stores ⟨pool, []⟩ m [] := by
  obtain ⟨pool, hclear, b'⟩ := b.clear
  exact ⟨pool, by simp only [reset, hclear, symbols], b'⟩

/-- Sessions with the same options read the same script. -/
theorem Carries.read_alike (hW : Set.InjOn hash W) (hs : s.Carries o W r m)
    (ht : t.Carries o W r m') (tree : FileTree) (path : Path)
    (hoffered : ∀ u ∈ s.offered tree path, u ∈ W) :
    ∃ (s' t' : Session hash) (written : FileTree),
      s.load tree path =
        ⟨verdict s'.analyse.1 s'.analyse.2.script.diagnostics, s'.analyse.2, written⟩ ∧
      t.load tree path =
        ⟨verdict t'.analyse.1 t'.analyse.2.script.diagnostics, t'.analyse.2, written⟩ ∧
      s'.Alike o W r m m' [] t' ∧ s'.tokens = s.reset.2.tokens ∧
      s'.script.symbols.names = (s.readScript tree path).symbols.names ∧
      s'.script.lines = (s.readScript tree path).lines := by
  obtain ⟨lines, hstores⟩ := hs.stores
  obtain ⟨lines', hstores'⟩ := ht.stores
  obtain ⟨pool, hreset, stored⟩ := reset_of_stores hstores
  obtain ⟨pool', hreset', stored'⟩ := reset_of_stores hstores'
  have hstart : (Script.start s.symbols s.options.errorLimit).Same W r
      (.start t.symbols t.options.errorLimit) := by
    rw [hs.options, ht.options]
    have hdefinitions : s.symbols.definitions = t.symbols.definitions := by
      rw [symbols, symbols, hs.options, ht.options]
    exact ⟨t.symbols, rfl, hdefinitions, hs.names, ht.names⟩
  have hsteps := (List.forall_mem_append.mp hoffered).1
  have hread := Script.keepsSame_load hW tree (Script.rootOf tree path) maxIncludeDepth none path
    _ _ hstart hsteps
  have hlevel : s.options.featureLevel = t.options.featureLevel := by rw [hs.options, ht.options]
  have halike : (s.reading pool tree path).Alike o W r m m' [] (t.reading pool' tree path) :=
    ⟨hs.options, ht.options, hread, hlevel, stored, stored'⟩
  obtain ⟨htree, hwritten⟩ := halike.writeCombined tree
  obtain ⟨es, -, hscript, htokens⟩ := writeCombined_cases (s.reading pool tree path) tree
  rcases hwrite : (s.reading pool tree path).writeCombined tree with ⟨s', written⟩
  rcases hwrite' : (t.reading pool' tree path).writeCombined tree with ⟨t', written'⟩
  rw [hwrite, hwrite'] at htree hwritten
  rw [hwrite] at hscript htokens
  obtain rfl : written' = written := htree
  have hscript : s'.script = (s.readScript tree path).addErrors es := hscript
  refine ⟨s', t', written', load_of_written hreset hwrite, load_of_written hreset' hwrite',
    hwritten, ?_, ?_, ?_⟩
  · rw [hreset]
    exact htokens
  · rw [hscript]
    rfl
  · rw [hscript]
    rfl

theorem Alike.diagnostics_eq {lines : List (List Token)} (h : s.Alike o W r m m' lines t) :
    t.script.diagnostics = s.script.diagnostics := by
  obtain ⟨symbols, hscript, -⟩ := h.script
  rw [hscript]

/-- The script is analysed alike, too, unless the first session has fewer places for its tokens and
runs out of them. -/
theorem Carries.load_alike (hW : Set.InjOn hash W) (hs : s.Carries o W r m)
    (ht : t.Carries o W r m') {tree : FileTree} {path : Path}
    (hoffered : ∀ u ∈ s.offered tree path, u ∈ W)
    (hroom : m.card = m'.card ∨
      m'.card ≤ m.card ∧ (s.load tree path).result ≠ .error (.pool .exhausted)) :
    (t.load tree path).result = (s.load tree path).result ∧
      ∃ lines lost lost', (s.load tree path).session.Alike o W r (m + lost) (m' + lost') lines
          (t.load tree path).session ∧
        (lost = 0 ∨ (s.load tree path).result = .error (.pool .exhausted)) := by
  obtain ⟨s', t', written, hload, hload', h, htokens, hnames, hlines⟩ :=
    hs.read_alike hW ht tree path hoffered
  have htexts := (List.forall_mem_append.mp hoffered).2
  rw [← htokens, ← hnames, ← hlines] at htexts
  rw [hload] at hroom ⊢
  rw [hload']
  have hexhausted (he : s'.analyse.1 = .error .exhausted) :
      verdict s'.analyse.1 s'.analyse.2.script.diagnostics = .error (.pool .exhausted) := by
    rw [he]
    rfl
  obtain ⟨lines, lost, lost', hresult, h', hlost⟩ :=
    h.analyse hW (hroom.imp_right fun hc => ⟨hc.1, fun he => hc.2 (hexhausted he)⟩) htexts
  exact ⟨by rw [hresult, h'.diagnostics_eq], lines, lost, lost', h',
    hlost.imp And.right hexhausted⟩

/-- Tokens are lost only when the pool is full. -/
theorem Carries.load (hW : Set.InjOn hash W) (h : s.Carries o W r m) {tree : FileTree} {path : Path}
    (hoffered : ∀ u ∈ s.offered tree path, u ∈ W) :
    ∃ m', (s.load tree path).session.Carries o W r m' ∧
      (m' = m ∨ (s.load tree path).result = .error (.pool .exhausted)) := by
  obtain ⟨-, lines, lost, lost', h', hlost⟩ := h.load_alike hW h hoffered (.inl rfl)
  obtain ⟨symbols, -, hsymbols⟩ := h'.script
  refine ⟨m + lost, ⟨h'.options, hsymbols.left, lines, h'.left⟩, hlost.imp_left fun h => ?_⟩
  rw [h, add_zero]

/-! Scripts that are loaded one after the other, each from the files as they are then. -/

def loadAll (s : Session hash) : List (FileTree × Path) → Session hash
  | [] => s
  | (tree, path) :: calls => (s.load tree path).session.loadAll calls

def results (s : Session hash) : List (FileTree × Path) → List (Except LoadError Unit)
  | [] => []
  | (tree, path) :: calls => (s.load tree path).result :: (s.load tree path).session.results calls

/-- The texts that the scripts enter in the table of names. -/
def offeredAll (s : Session hash) : List (FileTree × Path) → List String
  | [] => []
  | (tree, path) :: calls => s.offered tree path ++ (s.load tree path).session.offeredAll calls

theorem Carries.loadAll (hW : Set.InjOn hash W) (h : s.Carries o W r m)
    {calls : List (FileTree × Path)} (hoffered : ∀ u ∈ s.offeredAll calls, u ∈ W) :
    ∃ m', (s.loadAll calls).Carries o W r m' ∧
      (m' = m ∨ .error (.pool .exhausted) ∈ s.results calls) := by
  induction calls generalizing s m with
  | nil => exact ⟨m, h, .inl rfl⟩
  | cons call calls ih =>
    obtain ⟨hfirst, hrest⟩ := List.forall_mem_append.mp hoffered
    obtain ⟨m', h', hlost⟩ := h.load hW hfirst
    obtain ⟨m'', h'', hlost'⟩ := ih h' hrest
    refine ⟨m'', h'', ?_⟩
    rcases hlost with rfl | hfull
    · exact hlost'.imp_right (List.mem_cons_of_mem _)
    · exact .inr (List.mem_cons.mpr (.inl hfull.symm))

end Session
end ScriptFront
