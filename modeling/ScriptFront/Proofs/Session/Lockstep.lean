import ScriptFront.Proofs.Script.Names
import ScriptFront.Proofs.Session.Analysis
import ScriptFront.Proofs.Session.TokenNames

/-! Two sessions that analyse the same script. They go on alike, whatever names they know and
wherever their tokens are in their pools. -/
namespace ScriptFront

variable {hash : NameHash} {W : Set String} {r : Interner hash} {m m' : Multiset Handle}

namespace Script.Same

variable {s t : Script hash}

theorem withNames (h : s.Same W r t) {names names' : Interner hash} (hs : names.Agrees W r)
    (ht : names'.Agrees W r) : (s.withNames names).Same W r (t.withNames names') := by
  obtain ⟨symbols, rfl, h⟩ := h
  exact ⟨{ symbols with names := names' }, rfl, h.definitions, hs, ht⟩

theorem addErrorAt (h : s.Same W r t) (e : ErrorRecord) (line : Nat) :
    (s.addErrorAt e line).Same W r (t.addErrorAt e line) := by
  obtain ⟨symbols, rfl, h⟩ := h
  unfold Script.addErrorAt
  dsimp only
  split
  · exact ⟨symbols, rfl, h⟩
  · exact ⟨symbols, rfl, h⟩

theorem addLineErrors (h : s.Same W r t) (es : List LineError) :
    (s.addLineErrors es).Same W r (t.addLineErrors es) := by
  induction es generalizing s t with
  | nil => exact h
  | cons e es ih => exact ih (h.addErrorAt _ e.line)

end Script.Same

namespace Session

/-- The sessions have the options `o`, and they are the same but for the types, the names and the
handles of the tokens. For the texts `W` both tables of names are those of `r`, and the pools have
also the tokens `m` and `m'`. -/
structure Alike (o : Options hash) (W : Set String) (r : Interner hash) (m m' : Multiset Handle)
    (lines : List (List Token)) (s t : Session hash) : Prop where
  options : s.options = o
  options' : t.options = o
  script : s.script.Same W r t.script
  featureLevel : s.featureLevel = t.featureLevel
  left : s.tokens.Stores m lines
  right : t.tokens.Stores m' lines

variable {o : Options hash} {lines : List (List Token)} {s t : Session hash}

/-- Pragmas change neither the tokens nor the options. -/
theorem foldl_applyPragma_frame (line : Nat) (s : Session hash) (ps : List GlobalPragma) :
    (ps.foldl (applyPragma line) s).tokens = s.tokens ∧
      (ps.foldl (applyPragma line) s).options = s.options := by
  induction ps generalizing s with
  | nil => exact ⟨rfl, rfl⟩
  | cons p ps ih =>
    rw [List.foldl_cons, (ih _).1, (ih _).2]
    unfold applyPragma
    dsimp only
    split
    · exact ⟨rfl, rfl⟩
    · exact ⟨rfl, rfl⟩

namespace Alike

theorem applyPragma (h : s.Alike o W r m m' lines t) (line : Nat) (p : GlobalPragma) :
    (applyPragma line s p).Alike o W r m m' lines (applyPragma line t p) := by
  obtain ⟨level⟩ := p
  unfold Session.applyPragma
  dsimp only
  split
  · exact h
  · refine ⟨h.options, h.options', ?_, rfl, h.left, h.right⟩
    split
    · exact h.script.addErrorAt _ line
    · exact h.script

theorem foldl_applyPragma (h : s.Alike o W r m m' lines t) (line : Nat) (ps : List GlobalPragma) :
    (ps.foldl (Session.applyPragma line) s).Alike o W r m m' lines
      (ps.foldl (Session.applyPragma line) t) := by
  induction ps generalizing s t with
  | nil => exact h
  | cons p ps ih => exact ih (h.applyPragma line p)

theorem consume (h : s.Alike o W r m m' lines t) (line : Nat) (positions : List Nat) :
    ∃ lines' s' t', s.consume line positions = (.ok (), s') ∧
      t.consume line positions = (.ok (), t') ∧ s'.Alike o W r m m' lines' t' := by
  have hs := h.left.getElem?_values line
  have ht := h.right.getElem?_values line
  unfold Session.consume
  rcases hline : lines[line]? with _ | ts
  · rw [hline, Option.map_none, Option.map_eq_none_iff] at hs ht
    rw [hs, ht]
    exact ⟨lines, s, t, rfl, rfl, h⟩
  · rw [hline, Option.map_some, Option.map_eq_some_iff] at hs ht
    obtain ⟨l, hl, -⟩ := hs
    obtain ⟨l', hl', -⟩ := ht
    obtain ⟨hrun, hleft⟩ := h.left.eraseIndices hl hline positions
    obtain ⟨hrun', hright⟩ := h.right.eraseIndices hl' hline positions
    simp only [hl, hl', hrun, hrun']
    exact ⟨_, _, _, rfl, rfl, h.options, h.options', h.script, h.featureLevel, hleft, hright⟩

theorem applyLine (h : s.Alike o W r m m' lines t) (line : Nat) :
    ∃ lines' s' t', s.applyLine line = (.ok (), s') ∧ t.applyLine line = (.ok (), t') ∧
      s'.Alike o W r m m' lines' t' := by
  have hfold := h.foldl_applyPragma line
  unfold Session.applyLine
  rw [h.left.line_eq, h.right.line_eq]
  dsimp only
  generalize globalPragmas _ = found
  have hpragmas := hfold (found.map (·.2))
  rw [hpragmas.options, hpragmas.options']
  split
  · exact ⟨lines, _, _, rfl, rfl, hpragmas⟩
  · exact hpragmas.consume line _

theorem applyLines (h : s.Alike o W r m m' lines t) (line count : Nat) :
    ∃ lines' s' t', s.applyLines line count = (.ok (), s') ∧
      t.applyLines line count = (.ok (), t') ∧ s'.Alike o W r m m' lines' t' := by
  induction count generalizing line lines s t with
  | zero => exact ⟨lines, s, t, rfl, rfl, h⟩
  | succ count ih =>
    obtain ⟨lines', s', t', hs, ht, h'⟩ := h.applyLine line
    obtain ⟨lines'', s'', t'', hs', ht', h''⟩ := ih h' (line + 1)
    refine ⟨lines'', s'', t'', ?_, ?_, h''⟩
    · simp only [Session.applyLines, hs, hs']
    · simp only [Session.applyLines, ht, ht']

/-- The pools have equally many places for the lines, or the first one has fewer and the lines fit
nevertheless. -/
theorem tokenizeLines (hW : Set.InjOn hash W) (h : s.Alike o W r m m' [] t)
    (hroom : m.card = m'.card ∨ m'.card ≤ m.card ∧ s.tokenizeLines.1 ≠ .error .exhausted)
    (htexts : ∀ u ∈ TokenLines.offered s.tokens.pool s.script.symbols.names s.script.lines.toList,
      u ∈ W) :
    ∃ lines lost lost', t.tokenizeLines.1 = s.tokenizeLines.1 ∧
      s.tokenizeLines.2.Alike o W r (m + lost) (m' + lost') lines t.tokenizeLines.2 ∧
      (s.tokenizeLines.1 = .ok () ∧ lost = 0 ∨ s.tokenizeLines.1 = .error .exhausted) := by
  obtain ⟨hs, b⟩ := h.left.of_nil
  obtain ⟨ht, b'⟩ := h.right.of_nil
  obtain ⟨symbols, hscript, hsymbols⟩ := h.script
  have hlines : t.script.lines = s.script.lines := by rw [hscript]
  have hnames : t.script.symbols.names.Agrees W r := by
    rw [hscript]
    exact hsymbols.right
  rw [tokenizeLines_eq s] at hroom ⊢
  rw [tokenizeLines_eq t, hlines]
  have hone := congrArg (·.addLines s.script.symbols.names 0 s.script.lines.toList) hs
  have hother := congrArg (·.addLines t.script.symbols.names 0 s.script.lines.toList) ht
  obtain ⟨⟨hresult, herrors, hleft, hright⟩, kept, lost, lost', stored, stored', hlost⟩ :=
    TokenLines.addLines_alike hW hsymbols.left hnames b b' hone hother hroom htexts
  have hnamed := h.script.withNames hleft hright
  refine ⟨kept, lost, lost', hresult, ⟨h.options, h.options', ?_, h.featureLevel, stored, stored'⟩,
    hlost⟩
  simp only [hresult, herrors]
  split
  · exact hnamed
  · exact hnamed.addLineErrors _

/-- Sessions that have read the same script analyse it alike. -/
theorem analyse (hW : Set.InjOn hash W) (h : s.Alike o W r m m' [] t)
    (hroom : m.card = m'.card ∨ m'.card ≤ m.card ∧ s.analyse.1 ≠ .error .exhausted)
    (htexts : ∀ u ∈ TokenLines.offered s.tokens.pool s.script.symbols.names s.script.lines.toList,
      u ∈ W) :
    ∃ lines lost lost', t.analyse.1 = s.analyse.1 ∧
      s.analyse.2.Alike o W r (m + lost) (m' + lost') lines t.analyse.2 ∧
      (s.analyse.1 = .ok () ∧ lost = 0 ∨ s.analyse.1 = .error .exhausted) := by
  have htokenized := h.tokenizeLines hW
  unfold Session.analyse at hroom ⊢
  rcases hrun : s.tokenizeLines with ⟨e | _, s'⟩
  · simp only [hrun] at htokenized hroom ⊢
    obtain ⟨lines, lost, lost', hresult, h', hlost⟩ := htokenized hroom htexts
    rcases hrun' : t.tokenizeLines with ⟨_ | _, t'⟩ <;> rw [hrun'] at hresult h' <;> cases hresult
    exact ⟨lines, lost, lost', rfl, h', hlost⟩
  · simp only [hrun] at htokenized hroom ⊢
    obtain ⟨lines, lost, lost', hresult, h', hlost⟩ :=
      htokenized (hroom.imp_right fun h => ⟨h.1, nofun⟩) htexts
    rcases hrun' : t.tokenizeLines with ⟨_ | _, t'⟩ <;> rw [hrun'] at hresult h' <;> cases hresult
    have hlength : t'.tokens.lists.length = s'.tokens.lists.length :=
      h'.right.length_lists.trans h'.left.length_lists.symm
    obtain ⟨lines', s'', t'', hs, ht, h''⟩ := h'.applyLines 0 s'.tokens.lists.length
    simp only [hlength, hs, ht]
    exact ⟨lines', lost, lost', trivial, h'', hlost.imp (fun h => ⟨trivial, h.2⟩) nofun⟩

end Alike
end Session
end ScriptFront
