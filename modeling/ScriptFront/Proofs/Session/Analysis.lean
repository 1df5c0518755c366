import ScriptFront.Proofs.Script.Origins
import ScriptFront.Proofs.Session.TokenHolds
import ScriptFront.Session

/-! What analysing a script adds to it: the errors of its tokens, each at the place of its line, and the
errors of its pragmas. -/
namespace ScriptFront

variable {hash : NameHash}

namespace ReadLine

/-- The errors that tokenizing finds in lines, each at the place of its line. -/
def lexicalErrors (names : Interner hash) : List ReadLine → List ErrorRecord
  | [] => []
  | l :: ls =>
    let r := tokenize names l.text
    r.errors.map (·.record l.origin) ++ lexicalErrors r.names ls

theorem reports_of_mem_lexicalErrors {names : Interner hash} {ls : List ReadLine} {e : ErrorRecord}
    (h : e ∈ lexicalErrors names ls) : ∃ l ∈ ls, l.Reports hash l.text e := by
  induction ls generalizing names with
  | nil => cases h
  | cons l ls ih =>
    rcases List.mem_append.mp h with h | h
    · obtain ⟨lex, hlex, rfl⟩ := List.mem_map.mp h
      exact ⟨l, List.mem_cons_self, names, lex, hlex, rfl⟩
    · obtain ⟨l', hl', hreports⟩ := ih h
      exact ⟨l', List.mem_cons_of_mem l hl', hreports⟩

end ReadLine

namespace Script

def addErrors (s : Script hash) (es : List ErrorRecord) : Script hash :=
  { s with diagnostics := s.diagnostics.addErrors es }

def withNames (s : Script hash) (names : Interner hash) : Script hash :=
  { s with symbols := { s.symbols with names } }

theorem addErrors_cons (s : Script hash) (e : ErrorRecord) (es : List ErrorRecord) :
    s.addErrors (e :: es) = (s.addError e).addErrors es := rfl

theorem addErrors_append (s : Script hash) (es fs : List ErrorRecord) :
    s.addErrors (es ++ fs) = (s.addErrors es).addErrors fs := by
  simp [addErrors, Diagnostics.addErrors, List.foldl_append]

theorem Realizes.addErrors {s : Script hash} {o : Outline} (h : s.Realizes o)
    {es : List ErrorRecord} (hes : ∀ e ∈ es, e.code.phase ≠ .lexical) :
    (s.addErrors es).Realizes o := by
  induction es generalizing s with
  | nil => exact h
  | cons e es ih =>
    obtain ⟨he, hes⟩ := List.forall_mem_cons.mp hes
    exact ih (h.addError he) hes

theorem addErrorAt_cases (s : Script hash) {e : ErrorRecord} {code : ErrorCode}
    (he : e.code = code) (line : Nat) :
    ∃ es, (∀ e' ∈ es, e'.code = code) ∧ s.addErrorAt e line = s.addErrors es := by
  unfold addErrorAt
  split
  · exact ⟨[e.located _ _], List.forall_mem_singleton.mpr he, rfl⟩
  · exact ⟨[e], List.forall_mem_singleton.mpr he, rfl⟩

/-- An error in a line of the text is reported at the place where the line comes from. -/
theorem addErrorAt_of_origin? {s : Script hash} (hs : s.lineMap.Sorted) {line : Nat}
    {l : FileLine} (h : s.lineMap.origin? line = some l) (e : ErrorRecord) :
    s.addErrorAt e line = s.addError (e.located l.file (lineNumber l.index)) := by
  have hnumber : lineNumber (min l.index maxLine) = lineNumber l.index := by
    unfold lineNumber
    omega
  rw [addErrorAt, LineMap.translate_of_origin? hs h]
  dsimp only
  rw [hnumber]

theorem addErrorAt_atLine {s : Script hash} (hs : s.lineMap.Sorted) {line : Nat}
    {l : FileLine} (h : s.lineMap.origin? line = some l) (e : LexError) :
    s.addErrorAt (.new (e.atLine line).code (e.atLine line).message) (e.atLine line).line =
      s.addError (e.record l) := addErrorAt_of_origin? hs h _

def addLineErrors (s : Script hash) (es : List LineError) : Script hash :=
  es.foldl (fun s e => s.addErrorAt (.new e.code e.message) e.line) s

theorem addLineErrors_append (s : Script hash) (es fs : List LineError) :
    s.addLineErrors (es ++ fs) = (s.addLineErrors es).addLineErrors fs := List.foldl_append

theorem addLineErrors_line {s : Script hash} (hs : s.lineMap.Sorted) {line : Nat}
    {l : FileLine} (h : s.lineMap.origin? line = some l) (es : List LexError) :
    s.addLineErrors (es.map (·.atLine line)) = s.addErrors (es.map (·.record l)) := by
  induction es generalizing s with
  | nil => rfl
  | cons e es ih =>
    have hfirst := addErrorAt_atLine hs h e
    have hrest := ih (s := s.addError (e.record l)) hs h
    rw [List.map_cons, List.map_cons, addErrors_cons, ← hrest, ← hfirst]
    rfl

/-- The errors of lines that are all tokenized. The lines have indices from `index` on. -/
theorem addLineErrors_addLines {s : Script hash} (hs : s.lineMap.Sorted) {ls : List ReadLine}
    {index : Nat} (horigin : ∀ k l, ls[k]? = some l → s.lineMap.origin? (index + k) = some l.origin)
    (t : TokenLines) (names : Interner hash)
    (hok : (t.addLines names index (ls.map ReadLine.text)).result = .ok ()) :
    s.addLineErrors (t.addLines names index (ls.map ReadLine.text)).errors =
      s.addErrors (ReadLine.lexicalErrors names ls) := by
  induction ls generalizing s index t names with
  | nil => rfl
  | cons l ls ih =>
    have hfirst : s.lineMap.origin? index = some l.origin := horigin 0 l rfl
    have hline := addLineErrors_line hs hfirst (tokenize names l.text).errors
    rw [List.map_cons] at hok ⊢
    have hparts : (TokenList.ofLine t.pool names l.text).result = .ok () → _ :=
      TokenList.addParts_of_ok
    rcases hrun : TokenList.ofLine t.pool names l.text with ⟨_ | _, l', pool, names', errors⟩ <;>
      simp only [TokenLines.addLines, hrun] at hok ⊢
    · cases hok
    · rw [← TokenList.ofLine, hrun] at hparts
      obtain ⟨rfl, rfl⟩ := hparts rfl
      rw [← tokenize, addLineErrors_append, hline, ReadLine.lexicalErrors, addErrors_append]
      refine ih (s := s.addErrors _) hs (fun k l hl => ?_) _ _ hok
      rw [Nat.add_right_comm, Nat.add_assoc]
      exact horigin (k + 1) l hl

end Script

namespace Session

theorem tokenizeLines_eq (s : Session hash) :
    let r := s.tokens.addLines s.script.symbols.names 0 s.script.lines.toList
    s.tokenizeLines = (r.result, { s with
      script := match r.result with
        | .error _ => s.script.withNames r.names
        | .ok _ => (s.script.withNames r.names).addLineErrors r.errors
      tokens := r.tokens }) := by
  unfold tokenizeLines
  dsimp only
  rcases (s.tokens.addLines s.script.symbols.names 0 s.script.lines.toList).result with e | _
  · rfl
  · rfl

/-- Tokenizing adds the errors of the lines, or it fails and adds nothing. -/
theorem tokenizeLines_cases {s : Session hash} {o : Outline} (h : s.script.Realizes o) :
    ∃ names es, s.tokenizeLines.2.script = (s.script.withNames names).addErrors es ∧
      ((s.tokenizeLines.1 = .ok () ∧ es = ReadLine.lexicalErrors s.script.symbols.names o.lines) ∨
        ∃ e, s.tokenizeLines.1 = .error e ∧ es = []) := by
  have herrors (names : Interner hash)
      (hok : (s.tokens.addLines s.script.symbols.names 0 (o.lines.map ReadLine.text)).result =
        .ok ()) :=
    (s.script.withNames names).addLineErrors_addLines h.sorted
      (fun k l hl => (Nat.zero_add k).symm ▸ h.origins k l hl) s.tokens s.script.symbols.names hok
  rw [tokenizeLines_eq, h.lines]
  rcases hrun : s.tokens.addLines s.script.symbols.names 0 (o.lines.map ReadLine.text) with
    ⟨_ | _, tokens, names, errors⟩
  · exact ⟨names, [], rfl, .inr ⟨_, rfl, rfl⟩⟩
  · rw [hrun] at herrors
    exact ⟨names, _, herrors names rfl, .inl ⟨rfl, rfl⟩⟩

/-- What applying pragmas may do: it reports those at fault, and takes tokens out of lines. -/
def PragmaStep (s next : Session hash) : Prop :=
  (∃ es, (∀ e ∈ es, e.code = .unsupportedFeatureLevel) ∧ next.script = s.script.addErrors es) ∧
    ∀ m, s.tokens.Held m → next.tokens.Held m

namespace PragmaStep

theorem refl (s : Session hash) : s.PragmaStep s := ⟨⟨[], by simp, rfl⟩, fun _ h => h⟩

theorem trans {s t u : Session hash} (h : s.PragmaStep t) (h' : t.PragmaStep u) :
    s.PragmaStep u := by
  obtain ⟨⟨es, hes, hs⟩, hheld⟩ := h
  obtain ⟨⟨fs, hfs, ht⟩, hheld'⟩ := h'
  refine ⟨⟨es ++ fs, ?_, ?_⟩, fun m b => hheld' m (hheld m b)⟩
  · exact fun e he => (List.mem_append.mp he).elim (hes e) (hfs e)
  · rw [ht, hs, Script.addErrors_append]

end PragmaStep

theorem pragmaStep_applyPragma (line : Nat) (s : Session hash) (p : GlobalPragma) :
    s.PragmaStep (applyPragma line s p) := by
  obtain ⟨level⟩ := p
  unfold applyPragma
  dsimp only
  split
  · exact .refl s
  · refine ⟨?_, fun _ h => h⟩
    split
    · refine s.script.addErrorAt_cases ?_ line
      rfl
    · exact ⟨[], by simp, rfl⟩

theorem pragmaStep_foldl (line : Nat) (s : Session hash) (ps : List GlobalPragma) :
    s.PragmaStep (ps.foldl (applyPragma line) s) := by
  induction ps generalizing s with
  | nil => exact .refl s
  | cons p ps ih => exact (pragmaStep_applyPragma line s p).trans (ih _)

theorem pragmaStep_consume (s : Session hash) (line : Nat) (positions : List Nat) :
    s.PragmaStep (s.consume line positions).2 := by
  unfold consume
  split
  · exact .refl s
  · next l hl => exact ⟨⟨[], by simp, rfl⟩, fun m b => TokenLines.held_eraseIndices b hl positions⟩

theorem pragmaStep_applyLine (s : Session hash) (line : Nat) :
    s.PragmaStep (s.applyLine line).2 := by
  unfold applyLine
  split
  · exact .refl s
  · next ts _ =>
    have hfold := pragmaStep_foldl line s ((globalPragmas ts).map (·.2))
    dsimp only
    split
    · exact hfold
    · exact hfold.trans (pragmaStep_consume _ line _)

theorem pragmaStep_applyLines (s : Session hash) (line count : Nat) :
    s.PragmaStep (s.applyLines line count).2 := by
  induction count generalizing s line with
  | zero => exact .refl s
  | succ count ih =>
    have hline := pragmaStep_applyLine s line
    unfold applyLines
    rcases hrun : s.applyLine line with ⟨_ | _, s'⟩ <;> rw [hrun] at hline
    · exact hline
    · exact hline.trans (ih s' (line + 1))

theorem held_tokenizeLines {s : Session hash} {m : Multiset Handle} (b : s.tokens.Held m) :
    ∃ lost, s.tokenizeLines.2.tokens.Held (m + lost) := by
  obtain ⟨lost, b'⟩ := TokenLines.held_addLines b s.script.symbols.names 0 s.script.lines.toList
  exact ⟨lost, by rwa [tokenizeLines_eq]⟩

theorem analyse_cases {s : Session hash} {o : Outline} (h : s.script.Realizes o) :
    ∃ names found pragmas, (∀ e ∈ pragmas, e.code = .unsupportedFeatureLevel) ∧
      s.analyse.2.script = (s.script.withNames names).addErrors (found ++ pragmas) ∧
      (found = ReadLine.lexicalErrors s.script.symbols.names o.lines ∨
        found = [] ∧ ∃ e, s.analyse.1 = .error e) ∧
      ∀ m, s.tokens.Held m → ∃ m', s.analyse.2.tokens.Held m' := by
  obtain ⟨names, found, hscript, hfound⟩ := tokenizeLines_cases h
  have hheld : ∀ m, s.tokens.Held m → ∃ m', s.tokenizeLines.2.tokens.Held m' := fun m b =>
    let ⟨lost, b'⟩ := held_tokenizeLines b
    ⟨m + lost, b'⟩
  unfold analyse
  rcases hrun : s.tokenizeLines with ⟨_ | _, s'⟩ <;> rw [hrun] at hscript hfound hheld
  · refine ⟨names, found, [], by simp, by simpa using hscript, ?_, hheld⟩
    rcases hfound with ⟨⟨⟩, -⟩ | ⟨e, -, hnil⟩
    exact .inr ⟨hnil, _, rfl⟩
  · have hfound : found = ReadLine.lexicalErrors s.script.symbols.names o.lines := by
      rcases hfound with ⟨-, h⟩ | ⟨e, ⟨⟩, -⟩
      exact h
    obtain ⟨⟨pragmas, hcodes, hpragmas⟩, hkeep⟩ :=
      pragmaStep_applyLines s' 0 s'.tokens.lists.length
    refine ⟨names, found, pragmas, hcodes, ?_, .inl hfound, fun m b => ?_⟩
    · rw [Script.addErrors_append, ← hscript]
      exact hpragmas
    · obtain ⟨m', b'⟩ := hheld m b
      exact ⟨m', hkeep m' b'⟩

end Session
end ScriptFront
