import ScriptFront.Proofs.Script.Findings
import ScriptFront.Proofs.Session.KeptTokens
import ScriptFront.Proofs.Token.LevelRequests

/-! The feature level of a session while the pragmas of a script take effect. Main statement: after
each line the level is the one that was asked for last, so it falls wherever a pragma asks for less
than the one before it. A level above the highest one is an error at the line that asks for it. -/
namespace ScriptFront

open TokenLines (lineTokens)

variable {hash : NameHash}

section Rows

/-! Rows of levels, some of which are left out, and the last one of them. -/

variable {α : Type} {level? : α → Option Nat}

theorem filterMap_cons_eq_append {β : Type} (f : α → Option β) (x : α) (xs : List α) :
    (x :: xs).filterMap f = (f x).toList ++ xs.filterMap f := by
  rw [List.filterMap_eq_flatMap_toList, List.filterMap_eq_flatMap_toList, List.flatMap_cons]

theorem getLastD_filterMap_cons (initial : Nat) (x : α) (xs : List α) :
    ((x :: xs).filterMap level?).getLastD initial =
      (xs.filterMap level?).getLastD ((level? x).getD initial) := by
  rcases hx : level? x with _ | n
  · rw [List.filterMap_cons_none hx, Option.getD_none]
  · rw [List.filterMap_cons_some hx, List.getLastD_cons, Option.getD_some]

theorem monotoneOn_Iic_iff {f : Nat → Nat} {n : Nat} :
    MonotoneOn f (Set.Iic n) ↔ ∀ k < n, f k ≤ f (k + 1) := by
  constructor
  · exact fun h k hk => h hk.le hk (Nat.le_succ k)
  · exact fun h => monotoneOn_of_le_add_one Set.ordConnected_Iic fun k _ _ hk => h k hk

/-- The last level never falls on the way through a row if and only if the levels are in order. -/
theorem monotoneOn_getLastD_iff (initial : Nat) (xs : List α) :
    MonotoneOn (fun k => ((xs.take k).filterMap level?).getLastD initial) (Set.Iic xs.length) ↔
      (initial :: xs.filterMap level?).Pairwise (· ≤ ·) := by
  rw [← List.isChain_iff_pairwise, monotoneOn_Iic_iff]
  induction xs generalizing initial with
  | nil => simp
  | cons x xs ih =>
    have hrest := ih ((level? x).getD initial)
    simp only [List.length_cons, Nat.forall_lt_succ_left, List.take_succ_cons,
      getLastD_filterMap_cons, hrest, List.take_zero, List.filterMap_nil, List.getLastD_nil]
    rcases hx : level? x with _ | n
    · rw [List.filterMap_cons_none hx, Option.getD_none]
      exact and_iff_right (Nat.le_refl initial)
    · rw [List.filterMap_cons_some hx, Option.getD_some, List.isChain_cons_cons]

theorem le_getLastD {initial : Nat} {ns : List Nat} (h : (initial :: ns).Pairwise (· ≤ ·)) :
    ∀ n ∈ initial :: ns, n ≤ ns.getLastD initial := by
  induction ns generalizing initial with
  | nil => exact fun n hn => (List.mem_singleton.mp hn).le
  | cons m ns ih =>
    obtain ⟨hfirst, hrest⟩ := List.pairwise_cons.mp h
    rw [List.getLastD_cons]
    intro n hn
    rcases List.mem_cons.mp hn with rfl | hn
    · exact (hfirst m List.mem_cons_self).trans (ih hrest m List.mem_cons_self)
    · exact ih hrest n hn

/-- The last one of levels in order is the greatest one. -/
theorem isGreatest_getLastD {initial : Nat} {ns : List Nat}
    (h : (initial :: ns).Pairwise (· ≤ ·)) :
    IsGreatest {n | n ∈ initial :: ns} (ns.getLastD initial) :=
  ⟨List.getLastD_mem_cons, le_getLastD h⟩

end Rows

/-- The level that is set where the number is asked for. Levels have 32 bits. -/
def levelOf (n : UInt64) : Nat := min n.toNat (UInt32.size - 1)

/-- The error in a line of a file that asks for the number, if there is no such level. -/
def levelError? (l : FileLine) (n : UInt64) : Option ErrorRecord :=
  if maxFeatureLevel < n.toNat then
    let cause := s!"script uses feature level {n.toNat}, but the highest supported level is"
    let e := ErrorRecord.new .unsupportedFeatureLevel s!"{cause} {maxFeatureLevel}"
    some ((e.withData n (.ofNat maxFeatureLevel)).located l.file (lineNumber l.index))
  else none

theorem code_of_levelError? {l : FileLine} {n : UInt64} {e : ErrorRecord}
    (h : levelError? l n = some e) : e.code = .unsupportedFeatureLevel := by
  unfold levelError? at h
  split at h
  · cases h
    rfl
  · cases h

theorem filter_of_reading {es : List ErrorRecord} (hes : ∀ e ∈ es, e.code.phase.OfReading) :
    es.filter (·.code = .unsupportedFeatureLevel) = [] := by
  refine List.filter_eq_nil_iff.mpr fun e he hcode => ?_
  have hphase := hes e he
  rw [of_decide_eq_true hcode] at hphase
  exact absurd hphase (by decide)

namespace ReadLine

/-- The number that the pragma of the line asks for, if it has one. -/
def request? (l : ReadLine) : Option UInt64 := requestOfLine? l.text

def level? (l : ReadLine) : Option Nat := l.request?.map levelOf

def levelError? (l : ReadLine) : Option ErrorRecord := l.request?.bind (ScriptFront.levelError? l.origin)

theorem filter_levelErrors (ls : List ReadLine) :
    (ls.filterMap levelError?).filter (·.code = .unsupportedFeatureLevel) =
      ls.filterMap levelError? := by
  refine List.filter_eq_self.mpr fun e he => ?_
  obtain ⟨l, -, hl⟩ := List.mem_filterMap.mp he
  obtain ⟨n, -, hn⟩ := Option.bind_eq_some_iff.mp hl
  exact decide_eq_true (code_of_levelError? hn)

/-- The tokens of each line ask for what the line asks for. -/
def Asks (ls : List ReadLine) (tss : List (List Token)) : Prop :=
  List.Forall₂ (fun l ts => ts.filterMap Token.request? = l.request?.toList) ls tss

theorem phase_lexicalErrors {names : Interner hash} {ls : List ReadLine} :
    ∀ e ∈ lexicalErrors names ls, e.code.phase = .lexical := by
  intro e he
  obtain ⟨l, -, names', lex, -, rfl⟩ := reports_of_mem_lexicalErrors he
  exact lex.cause.phase_code

theorem asks_lineTokens (names : Interner hash) (ls : List ReadLine) :
    Asks ls (lineTokens names (ls.map text)) := by
  induction ls generalizing names with
  | nil => exact .nil
  | cons l ls ih => exact .cons (requests_tokenize names l.text) (ih _)

end ReadLine

open ReadLine (Asks asks_lineTokens)

namespace Session

variable {s : Session hash} {line : Nat} {l : FileLine}

theorem applyPragma_eq (hs : s.script.lineMap.Sorted) (hl : s.script.lineMap.origin? line = some l)
    (p : GlobalPragma) :
    applyPragma line s p = { s with
      script := s.script.addErrors (p.request?.bind (levelError? l)).toList
      featureLevel := (p.request?.map levelOf).getD s.featureLevel } := by
  obtain ⟨n⟩ := p
  unfold applyPragma GlobalPragma.request?
  dsimp only
  split
  · rfl
  · rw [Option.bind_some, levelError?]
    split
    · rw [Script.addErrorAt_of_origin? hs hl]
      rfl
    · rfl

theorem foldl_applyPragma_eq (hs : s.script.lineMap.Sorted)
    (hl : s.script.lineMap.origin? line = some l) (ps : List GlobalPragma) :
    ps.foldl (applyPragma line) s = { s with
      script := s.script.addErrors
        ((ps.filterMap GlobalPragma.request?).filterMap (levelError? l))
      featureLevel := ((ps.filterMap GlobalPragma.request?).map levelOf).getLastD
        s.featureLevel } := by
  induction ps generalizing s with
  | nil => rfl
  | cons p ps ih =>
    rw [List.foldl_cons, applyPragma_eq hs hl]
    rcases hp : p.request? with _ | n
    · rw [List.filterMap_cons_none hp]
      exact ih hs hl
    · have hrest := ih (s := { s with
        script := s.script.addErrors (levelError? l n).toList
        featureLevel := levelOf n }) hs hl
      rw [List.filterMap_cons_some hp, List.map_cons, List.getLastD_cons]
      rw [filterMap_cons_eq_append, Script.addErrors_append]
      exact hrest

theorem consume_cases (s : Session hash) (line : Nat) (positions : List Nat) :
    ∃ tokens, (s.consume line positions).2 = { s with tokens } := by
  unfold consume
  split
  · exact ⟨s.tokens, rfl⟩
  · exact ⟨_, rfl⟩

/-- Of a line with these tokens only what it asks for is seen, in the level and in the errors. -/
theorem applyLine_cases (hs : s.script.lineMap.Sorted) {l : ReadLine}
    (hl : s.script.lineMap.origin? line = some l.origin) {ts : List Token}
    (hts : s.tokens.line line = .ok ts)
    (hasks : ts.filterMap Token.request? = l.request?.toList) :
    ∃ tokens, (s.applyLine line).2 = { s with
      script := s.script.addErrors l.levelError?.toList
      tokens
      featureLevel := l.level?.getD s.featureLevel } := by
  have hfold := foldl_applyPragma_eq hs hl ((globalPragmas ts).map Prod.snd)
  rw [requests_globalPragmas, hasks] at hfold
  have hline : ((globalPragmas ts).map Prod.snd).foldl (applyPragma line) s = { s with
      script := s.script.addErrors l.levelError?.toList
      featureLevel := l.level?.getD s.featureLevel } := by
    rw [hfold, ReadLine.levelError?, ReadLine.level?]
    rcases l.request? with _ | n
    · rfl
    · rw [Option.toList_some, filterMap_cons_eq_append, List.filterMap_nil, List.append_nil]
      rfl
  unfold applyLine
  rw [hts]
  dsimp only
  rw [hline]
  split
  · exact ⟨s.tokens, rfl⟩
  · exact consume_cases _ line _

section Run

variable {m : Multiset Handle} {done todo : List (List Token)}

/-- The line behind those that are done takes effect, and then it is done, too. -/
theorem applyLine_step {ts : List Token} {l : ReadLine}
    (b : s.tokens.Stores m (done ++ ts :: todo))
    (hasks : ts.filterMap Token.request? = l.request?.toList) (hs : s.script.lineMap.Sorted)
    (hl : s.script.lineMap.origin? done.length = some l.origin) :
    ∃ t kept, s.applyLine done.length = (.ok (), t) ∧
      t.featureLevel = l.level?.getD s.featureLevel ∧
      t.script = s.script.addErrors l.levelError?.toList ∧
      t.tokens.Stores m (done ++ [kept] ++ todo) := by
  have hts : (done ++ ts :: todo)[done.length]? = some ts := by simp
  have hline : s.tokens.line done.length = .ok ts := by rw [b.line_eq, hts, Option.getD_some]
  obtain ⟨tokens, hfound⟩ := applyLine_cases hs hl hline hasks
  obtain ⟨t, hrun, -, b'⟩ := applyLine_of_stores b hts
  rw [List.set_append_right _ _ (Nat.le_refl _), Nat.sub_self, List.set_cons_zero,
    List.append_cons] at b'
  rw [hrun] at hfound
  exact ⟨t, _, hrun, congrArg Session.featureLevel hfound, congrArg Session.script hfound, b'⟩

/-- The first ones of the lines that are left take effect, so many as one likes. -/
theorem applyLines_cases {ls : List ReadLine} (b : s.tokens.Stores m (done ++ todo))
    (hasks : Asks ls todo) (hs : s.script.lineMap.Sorted)
    (hl : ∀ k l, ls[k]? = some l → s.script.lineMap.origin? (done.length + k) = some l.origin)
    {count : Nat} (hcount : count ≤ ls.length) :
    let t := (s.applyLines done.length count).2
    t.featureLevel = ((ls.take count).filterMap ReadLine.level?).getLastD s.featureLevel ∧
      t.script = s.script.addErrors ((ls.take count).filterMap ReadLine.levelError?) := by
  induction count generalizing s done todo ls with
  | zero => exact ⟨rfl, rfl⟩
  | succ count ih =>
    cases hasks with
    | nil => cases hcount
    | @cons l ts ls todo hfirst hrest =>
    obtain ⟨t, kept, hrun, hlevel, hscript, b'⟩ := applyLine_step b hfirst hs (hl 0 l rfl)
    have hmap : t.script.lineMap = s.script.lineMap := by
      rw [hscript]
      rfl
    have hl' : ∀ k l, ls[k]? = some l →
        t.script.lineMap.origin? ((done ++ [kept]).length + k) = some l.origin := by
      intro k l hk
      rw [hmap, List.length_append, List.length_singleton, Nat.add_assoc, Nat.add_comm 1]
      exact hl (k + 1) l hk
    obtain ⟨hlevels, herrors⟩ := ih b' hrest (hmap ▸ hs) hl' (Nat.le_of_succ_le_succ hcount)
    rw [List.length_append, List.length_singleton] at hlevels herrors
    simp only [applyLines, hrun, List.take_succ_cons]
    refine ⟨?_, ?_⟩
    · rw [getLastD_filterMap_cons, hlevels, hlevel]
    · rw [filterMap_cons_eq_append, herrors, hscript, Script.addErrors_append]

end Run

theorem Reachable.stores (r : s.Reachable) : ∃ m lines, s.tokens.Stores m lines := by
  induction r with
  | new options => exact ⟨0, [], TokenLines.stores_empty⟩
  | load r tree path ih =>
    obtain ⟨m, lines, b⟩ := ih
    obtain ⟨-, -, hload⟩ := load_of_stores b tree path
    split at hload
    · exact ⟨m, _, hload.2⟩
    · obtain ⟨-, -, m', b'⟩ := hload
      exact ⟨m', _, b'⟩
  | withTables r types names ih => exact ih

/-- The session that has read the script at a path and written its text. -/
def prepared (s : Session hash) (tree : FileTree) (path : Path) : Session hash :=
  let s := s.reset.2
  ({ s with script := s.script.read tree path }.writeCombined tree).1

/-- The session that has read and tokenized the script at a path. No pragma has taken effect yet. -/
def tokenized (s : Session hash) (tree : FileTree) (path : Path) : Session hash :=
  (s.prepared tree path).tokenizeLines.2

/-- The session has read a script with the outline `o` and has the level that scripts start from. -/
structure HasRead (u : Session hash) (o : Outline) (errorLimit level : Nat) (m : Multiset Handle) :
    Prop where
  realizes : u.script.Realizes o
  ofReading : u.script.CollectsOfReading errorLimit
  featureLevel : u.featureLevel = level
  stores : u.tokens.Stores m []

section Prepared

variable {m : Multiset Handle} {lines : List (List Token)}

theorem hasRead_prepared (b : s.tokens.Stores m lines) (tree : FileTree) (path : Path) :
    (s.prepared tree path).HasRead (Outline.ofScript tree path s.symbols).1
      s.options.errorLimit s.options.featureLevel m := by
  obtain ⟨pool, hreset, b'⟩ := reset_of_stores b
  obtain ⟨written, hwritten, hwrite⟩ := writeCombined_eq (s.reading pool tree path) tree
  have hprepared : s.prepared tree path = { s.reading pool tree path with
      script := (s.readScript tree path).addErrors written } := by
    rw [prepared, hreset]
    exact hwrite
  have hreal := (Script.read_realizes tree path s.symbols s.options.errorLimit).2
  have hread := Script.read_collectsOfReading tree path s.symbols s.options.errorLimit
  rw [hprepared]
  exact {
    realizes := hreal.addErrors fun e he => by rw [hwritten e he]; decide
    ofReading := hread.addErrors rfl fun e he => by rw [hwritten e he]; decide
    featureLevel := rfl
    stores := b' }

theorem load_prepared (b : s.tokens.Stores m lines) (tree : FileTree) (path : Path) :
    (s.load tree path).session = (s.prepared tree path).analyse.2 ∧
      ∀ e, (s.prepared tree path).analyse.1 = .error e →
        (s.load tree path).result = .error (.pool e) := by
  obtain ⟨pool, hreset, -⟩ := reset_of_stores b
  rcases hwrite : (s.reading pool tree path).writeCombined tree with ⟨u, tree'⟩
  have hprepared : s.prepared tree path = u := by
    rw [prepared, hreset]
    exact congrArg Prod.fst hwrite
  have hload : s.load tree path = _ := load_of_written hreset hwrite
  rw [hload, hprepared]
  refine ⟨rfl, fun e he => ?_⟩
  rw [he]
  rfl

namespace HasRead

variable {u : Session hash} {o : Outline} {errorLimit level : Nat}

/-- Tokenizing finds faults of reading. It leaves the level and the places of the lines. -/
theorem tokenizeLines (h : u.HasRead o errorLimit level m) :
    u.tokenizeLines.2.featureLevel = level ∧
      u.tokenizeLines.2.script.CollectsOfReading errorLimit ∧
      u.tokenizeLines.2.script.lineMap = u.script.lineMap := by
  obtain ⟨names, found, hfound, hcases⟩ := tokenizeLines_cases h.realizes
  have hphases : ∀ e ∈ found, e.code.phase.OfReading := by
    rcases hcases with ⟨-, rfl⟩ | ⟨-, -, rfl⟩
    · exact fun e he => .inl (ReadLine.phase_lexicalErrors e he)
    · exact nofun
  refine ⟨?_, h.ofReading.addErrors (congrArg Script.diagnostics hfound) hphases, ?_⟩
  · rw [tokenizeLines_eq]
    exact h.featureLevel
  · rw [hfound]
    rfl

/-- All lines take effect, or the pool is full and none of them does. -/
theorem analyse (h : u.HasRead o errorLimit level m) :
    u.analyse.2 = u.tokenizeLines.2 ∧ (∃ e, u.analyse.1 = .error e) ∨
      u.analyse.2 = (u.tokenizeLines.2.applyLines 0 o.lines.length).2 ∧
        ∃ tss, u.tokenizeLines.2.tokens.Stores m tss ∧ Asks o.lines tss := by
  have hlines : Asks o.lines (scriptTokens u.script) := by
    rw [scriptTokens, h.realizes.lines]
    exact asks_lineTokens _ o.lines
  obtain ⟨-, htokenize⟩ := tokenizeLines_of_stores h.stores
  unfold Session.analyse
  rcases hrun : u.tokenizeLines with ⟨_ | _, t⟩ <;> rw [hrun] at htokenize
  · exact .inl ⟨rfl, _, rfl⟩
  · split at htokenize
    · have stored : t.tokens.Stores m (scriptTokens u.script) := htokenize.2
      have hlength : t.tokens.lists.length = o.lines.length := by
        rw [stored.length_lists]
        exact hlines.length_eq.symm
      refine .inr ⟨?_, _, stored, hlines⟩
      dsimp only
      rw [hlength]
    · cases htokenize.1

end HasRead

/-- All lines are done, or none of them where the pool was full. The level and the errors after the
first so many lines are told by what these ask for. -/
theorem load_done (b : s.tokens.Stores m lines) (tree : FileTree) (path : Path) :
    let t := s.tokenized tree path
    ∃ done, (done = (Outline.ofScript tree path s.symbols).1.lines ∨
        done = [] ∧ ∃ e, (s.load tree path).result = .error (.pool e)) ∧
      (s.load tree path).session = (t.applyLines 0 done.length).2 ∧
      ∀ count ≤ done.length,
        (t.applyLines 0 count).2.featureLevel =
            ((done.take count).filterMap ReadLine.level?).getLastD s.options.featureLevel ∧
          (t.applyLines 0 count).2.script =
            t.script.addErrors ((done.take count).filterMap ReadLine.levelError?) := by
  have h := hasRead_prepared b tree path
  obtain ⟨hsession, hresult⟩ := load_prepared b tree path
  obtain ⟨hlevel, -, hmap⟩ := h.tokenizeLines
  intro t
  rcases h.analyse with ⟨hfull, e, he⟩ | ⟨hall, tss, stored, hasks⟩
  · refine ⟨[], .inr ⟨rfl, e, hresult e he⟩, hsession.trans hfull, fun count hcount => ?_⟩
    obtain rfl : count = 0 := Nat.le_zero.mp hcount
    exact ⟨hlevel, rfl⟩
  · have stored : t.tokens.Stores m ([] ++ tss) := stored
    have hmap : t.script.lineMap = (s.prepared tree path).script.lineMap := hmap
    refine ⟨_, .inl rfl, hsession.trans hall, fun count hcount => ?_⟩
    rw [← hlevel]
    refine applyLines_cases stored hasks (hmap ▸ h.realizes.sorted) (fun k l hl => ?_) hcount
    rw [hmap, List.length_nil, Nat.zero_add]
    exact h.realizes.origins k l hl

end Prepared

/-- Whatever was loaded before, while the pragmas of a script take effect the level is always the one
that was asked for last, and that of the options before. So it never falls if and only if no pragma
asks for less than one before it; then it comes to be the greatest of all. A number above the highest
level is an error at the line that asks for it, once, and there is no other such error. If the pool is
full, no pragma takes effect. -/
theorem Reachable.load_levels (r : s.Reachable) (tree : FileTree) (path : Path) :
    let loaded := s.load tree path
    let levelAfter (count : Nat) : Nat :=
      ((s.tokenized tree path).applyLines 0 count).2.featureLevel
    let initial := s.options.featureLevel
    ∃ done, (done = (Outline.ofScript tree path s.symbols).1.lines ∨
        done = [] ∧ ∃ e, loaded.result = .error (.pool e)) ∧
      let levels := done.filterMap ReadLine.level?
      loaded.session = ((s.tokenized tree path).applyLines 0 done.length).2 ∧
      (∀ count ≤ done.length, levelAfter count =
        ((done.take count).filterMap ReadLine.level?).getLastD initial) ∧
      (MonotoneOn levelAfter (Set.Iic done.length) ↔ (initial :: levels).Pairwise (· ≤ ·)) ∧
      ((initial :: levels).Pairwise (· ≤ ·) →
        IsGreatest {n | n ∈ initial :: levels} loaded.session.featureLevel) ∧
      ∃ es, loaded.session.script.Collects s.options.errorLimit es ∧
        es.filter (·.code = .unsupportedFeatureLevel) = done.filterMap ReadLine.levelError? := by
  intro loaded levelAfter initial
  obtain ⟨m, lines, b⟩ := r.stores
  obtain ⟨-, ⟨es, hcollects, hes⟩, -⟩ := (hasRead_prepared b tree path).tokenizeLines
  obtain ⟨done, hdone, hsession, hafter⟩ := load_done b tree path
  have hlevels : ∀ count ≤ done.length, levelAfter count =
      ((done.take count).filterMap ReadLine.level?).getLastD initial :=
    fun count hcount => (hafter count hcount).1
  obtain ⟨hlast, hscript⟩ := hafter done.length (Nat.le_refl _)
  rw [← hsession, List.take_length] at hlast hscript
  refine ⟨done, hdone, hsession, hlevels, ?_, fun hordered => ?_, ?_⟩
  · rw [← monotoneOn_getLastD_iff]
    have heq : Set.EqOn levelAfter _ (Set.Iic done.length) := hlevels
    exact ⟨fun h => h.congr heq, fun h => h.congr heq.symm⟩
  · have hgreatest := isGreatest_getLastD hordered
    rwa [← hlast] at hgreatest
  · refine ⟨_, hcollects.addErrors (congrArg Script.diagnostics hscript), ?_⟩
    rw [List.filter_append, filter_of_reading hes, ReadLine.filter_levelErrors, List.nil_append]

/-- A script that takes in another one between its pragmas. -/
def twoLevels (first inner last : String) : FileTree where
  entries := [(["s".toList], .directory),
    (["s".toList, "a.lemon".toList], .file (first ++ "\ninclude b\n" ++ last).toUTF8),
    (["s".toList, "b.lemon".toList], .file inner.toUTF8)]
  workingDirectory := ["s".toList]

/-- The levels are asked for in order, and a text that is no number asks for none. -/
theorem load_levels_raised :
    let tree := twoLevels "//# script-feature-level( 0x2 )"
      "x //# script-feature-level(18446744073709551615)" "//# script-feature-level(5x)"
    let s : Session .standard := new .default
    let loaded := s.load tree "a.lemon".toList
    let levelAfter (count : Nat) : Nat :=
      ((s.tokenized tree "a.lemon".toList).applyLines 0 count).2.featureLevel
    s.Reachable ∧ MonotoneOn levelAfter (Set.Iic 3) ∧
      IsGreatest {n | n ∈ [1, 2, UInt32.size - 1]} loaded.session.featureLevel ∧
      ∃ es, loaded.session.script.Collects 0 es ∧ es.filter (·.code = .unsupportedFeatureLevel) =
        (levelError? ⟨⟨"/s/b.lemon", "b.lemon"⟩, 0⟩ 18446744073709551615).toList := by
  intro tree s loaded levelAfter
  have r : s.Reachable := .new .default
  obtain ⟨done, hdone, -, -, hmonotone, hgreatest, herrors⟩ := r.load_levels tree "a.lemon".toList
  have hresult : loaded.result = .error (.failed ⟨⟩) := by decide +kernel
  obtain rfl : done = (Outline.ofScript tree "a.lemon".toList s.symbols).1.lines := by
    refine hdone.resolve_right fun ⟨_, e, he⟩ => ?_
    cases hresult.symm.trans he
  have hlength : (Outline.ofScript tree "a.lemon".toList s.symbols).1.lines.length = 3 := by
    decide +kernel
  have hlevels : (Outline.ofScript tree "a.lemon".toList s.symbols).1.lines.filterMap
      ReadLine.level? = [2, UInt32.size - 1] := by decide +kernel
  have hlines : (Outline.ofScript tree "a.lemon".toList s.symbols).1.lines.filterMap
      ReadLine.levelError? =
        (levelError? ⟨⟨"/s/b.lemon", "b.lemon"⟩, 0⟩ 18446744073709551615).toList := by
    decide +kernel
  rw [hlevels] at hmonotone hgreatest
  rw [hlength] at hmonotone
  rw [hlines] at herrors
  have hordered : (1 :: [2, UInt32.size - 1]).Pairwise (· ≤ ·) := by decide
  exact ⟨r, hmonotone.mpr hordered, hgreatest hordered, herrors⟩

/-- A script that asks for level 2 and then takes in one that asks for level 1 has level 1. -/
theorem load_levels_lowered :
    let tree := twoLevels "//# script-feature-level(2)" "//# script-feature-level(1)" ""
    let s : Session .standard := new .default
    let loaded := s.load tree "a.lemon".toList
    let levelAfter (count : Nat) : Nat :=
      ((s.tokenized tree "a.lemon".toList).applyLines 0 count).2.featureLevel
    (Outline.ofScript tree "a.lemon".toList s.symbols).1.lines.filterMap ReadLine.level? = [2, 1] ∧
      loaded.result = .ok () ∧ s.options.featureLevel = 1 ∧ loaded.session.featureLevel = 1 ∧
      ¬MonotoneOn levelAfter (Set.Iic 2) ∧
      ¬IsGreatest {n | n ∈ [1, 2, 1]} loaded.session.featureLevel := by
  intro tree s loaded levelAfter
  have hlevels : (Outline.ofScript tree "a.lemon".toList s.symbols).1.lines.filterMap
      ReadLine.level? = [2, 1] := by decide +kernel
  have hresult : loaded.result = .ok () := by decide +kernel
  have hlast : loaded.session.featureLevel = 1 := by decide +kernel
  have hfirst : levelAfter 1 = 2 := by decide +kernel
  have hsecond : levelAfter 2 = 1 := by decide +kernel
  refine ⟨hlevels, hresult, rfl, hlast, fun hmonotone => ?_, fun hgreatest => ?_⟩
  · have hle : levelAfter 1 ≤ levelAfter 2 := hmonotone (by simp) (by simp) (by decide)
    omega
  · have hle : 2 ≤ loaded.session.featureLevel := hgreatest.2 (by simp)
    omega

end Session
end ScriptFront
