import ScriptFront.Proofs.Session.Reload

/-! The tokens of a loaded script and the objects of the pool. Main statement: each token of a line
is an object of its own, held once, and the pool has no other objects, but for those that were lost
when it was full. -/
namespace ScriptFront

open Pool (maxLive)

variable {hash : NameHash} {m : Multiset Handle}

namespace TokenLines

variable {t : TokenLines} {lines : List (List Token)}

theorem fitting_of_sum_le {places : Nat} {tss : List (List Token)}
    (h : (tss.map List.length).sum ≤ places) : fitting places tss = tss := by
  induction tss generalizing places with
  | nil => rfl
  | cons ts tss ih =>
    rw [List.map_cons, List.sum_cons] at h
    rw [fitting, if_pos (by omega), ih (by omega)]

theorem sum_le_of_fitting {places : Nat} {tss : List (List Token)}
    (h : (fitting places tss).length = tss.length) : (tss.map List.length).sum ≤ places := by
  induction tss generalizing places with
  | nil => exact Nat.zero_le _
  | cons ts tss ih =>
    unfold fitting at h
    split at h
    · next hfits =>
      have hrest := ih (Nat.add_right_cancel h)
      rw [List.map_cons, List.sum_cons]
      omega
    · cases h

theorem holds_eq_coe (lists : List TokenList) :
    holds lists = (lists.flatMap HandleList.handles : List Handle) := by
  induction lists with
  | nil => rfl
  | cons l lists ih => rw [holds_cons, ih, List.flatMap_cons, Multiset.coe_add]

/-- The lines show these tokens, each of which is an object of its own. The pool has no objects
besides, but for so many that were lost. -/
structure Accounted (t : TokenLines) (lost : Nat) (lines : List (List Token)) : Prop where
  length : t.lists.length = lines.length
  line : ∀ index, t.line index = .ok (lines[index]?.getD [])
  distinct : (t.lists.flatMap HandleList.handles).Nodup
  refs : ∀ h ∈ t.lists.flatMap HandleList.handles, t.pool.refs h = .ok 1
  live : t.pool.live = (t.lists.map fun l => l.handles.length).sum + lost

theorem Stores.accounted (b : t.Stores m lines) : t.Accounted m.card lines where
  length := b.length_lists
  line := b.line_eq
  distinct := by
    have hnodup := (Multiset.nodup_add.mp b.heldOnce.nodup).1
    rwa [holds_eq_coe, Multiset.coe_nodup] at hnodup
  refs h hh := by
    have hmem : h ∈ holds t.lists + m := by
      rw [holds_eq_coe]
      exact Multiset.mem_add.mpr (.inl (Multiset.mem_coe.mpr hh))
    obtain ⟨v, hv⟩ := b.heldOnce.find? hmem
    rw [Pool.refs, Pool.find_of_find? hv]
    rfl
  live := by
    rw [b.heldOnce.live, Multiset.card_add, holds_eq_coe, Multiset.coe_card, List.length_flatMap]

end TokenLines

open TokenLines (lineTokens fitting)

namespace Session

/-- Whether the token is a pragma that holds for the whole script. -/
def isGlobalPragma : Token → Bool
  | .pragma text => (GlobalPragma.ofText? text.toList).isSome
  | _ => false

theorem mem_globalPragmas_iff {ts : List Token} {i : Nat} :
    i ∈ (globalPragmas ts).map Prod.fst ↔ ∃ t, ts[i]? = some t ∧ isGlobalPragma t = true := by
  simp only [globalPragmas, List.mem_map, List.mem_filterMap, Prod.exists,
    List.mk_mem_zipIdx_iff_getElem?]
  constructor
  · rintro ⟨_, p, ⟨t, j, ht, hp⟩, rfl⟩
    cases t with
    | pragma text =>
      obtain ⟨q, hq, heq⟩ := Option.map_eq_some_iff.mp hp
      cases heq
      exact ⟨_, ht, congrArg Option.isSome hq⟩
    | _ => cases hp
  · rintro ⟨t, ht, hpragma⟩
    cases t with
    | pragma text =>
      obtain ⟨p, hp⟩ := Option.isSome_iff_exists.mp hpragma
      exact ⟨i, p, ⟨_, i, ht, congrArg (Option.map fun q => (i, q)) hp⟩, rfl⟩
    | _ => cases hpragma

/-- The positions of the global pragmas are those of these tokens and no others. -/
theorem without_globalPragmas (ts : List Token) :
    TokenLines.without ((globalPragmas ts).map Prod.fst) ts = ts.filter (!isGlobalPragma ·) := by
  have hsame : ∀ p ∈ ts.zipIdx,
      (!((globalPragmas ts).map Prod.fst).contains p.2) = !isGlobalPragma p.1 := by
    rintro ⟨t, i⟩ hp
    have ht := List.mk_mem_zipIdx_iff_getElem?.mp hp
    rw [Bool.not_inj_iff, Bool.eq_iff_iff, List.contains_iff_mem, mem_globalPragmas_iff, ht]
    simp
  rw [TokenLines.without, List.filter_congr hsame]
  have hmap := List.filter_map (f := Prod.fst) (p := fun t => !isGlobalPragma t) (l := ts.zipIdx)
  rw [List.zipIdx_map_fst] at hmap
  exact hmap.symm

/-- What is left of the tokens of a line when its pragmas have taken effect. -/
def keptTokens (o : Options hash) (ts : List Token) : List Token :=
  if o.consumePragmas then ts.filter (!isGlobalPragma ·) else ts

theorem keptTokens_of_nothing {o : Options hash} {ts : List Token}
    (h : (globalPragmas ts).isEmpty ∨ !o.consumePragmas) : keptTokens o ts = ts := by
  unfold keptTokens
  split
  · next hconsume =>
    have hnone : globalPragmas ts = [] := by simpa [hconsume] using h
    rw [← without_globalPragmas, hnone]
    simp [TokenLines.without]
  · rfl

variable {s : Session hash} {lines : List (List Token)}

theorem applyLine_of_stores (b : s.tokens.Stores m lines) {line : Nat} {ts : List Token}
    (hts : lines[line]? = some ts) :
    ∃ s', s.applyLine line = (.ok (), s') ∧ s'.options = s.options ∧
      s'.tokens.Stores m (lines.set line (keptTokens s.options ts)) := by
  let t := ((globalPragmas ts).map Prod.snd).foldl (applyPragma line) s
  obtain ⟨htokens, hoptions⟩ : t.tokens = s.tokens ∧ t.options = s.options :=
    foldl_applyPragma_frame line s _
  have hrun : s.applyLine line =
      if (globalPragmas ts).isEmpty ∨ !t.options.consumePragmas then (.ok (), t)
      else t.consume line ((globalPragmas ts).map Prod.fst) := by
    rw [applyLine, b.line_eq, hts]
    rfl
  rw [hrun, hoptions]
  split
  · next hnothing =>
    refine ⟨t, rfl, hoptions, ?_⟩
    obtain ⟨hlt, rfl⟩ := List.getElem?_eq_some_iff.mp hts
    rw [keptTokens_of_nothing hnothing, List.set_getElem_self, htokens]
    exact b
  · next hsome =>
    have hconsume : s.options.consumePragmas = true := by simpa using (not_or.mp hsome).2
    have hvalues := b.getElem?_values line
    rw [hts, Option.map_some, Option.map_eq_some_iff] at hvalues
    obtain ⟨l, hl, -⟩ := hvalues
    obtain ⟨hresult, b'⟩ := b.eraseIndices hl hts ((globalPragmas ts).map Prod.fst)
    rw [without_globalPragmas] at b'
    rw [keptTokens, if_pos hconsume, consume, htokens, hl]
    exact ⟨_, congrArg (·, _) hresult, hoptions, b'⟩

/-- The first lines are done, and the other ones are done one by one. -/
theorem applyLines_of_stores {done todo : List (List Token)}
    (b : s.tokens.Stores m (done ++ todo)) :
    ∃ s', s.applyLines done.length todo.length = (.ok (), s') ∧ s'.options = s.options ∧
      s'.tokens.Stores m (done ++ todo.map (keptTokens s.options)) := by
  induction todo generalizing s done with
  | nil => exact ⟨s, rfl, rfl, b⟩
  | cons ts todo ih =>
    have hts : (done ++ ts :: todo)[done.length]? = some ts := by simp
    obtain ⟨t, hrun, hoptions, b'⟩ := applyLine_of_stores b hts
    rw [List.set_append_right _ _ (Nat.le_refl _), Nat.sub_self, List.set_cons_zero,
      List.append_cons] at b'
    obtain ⟨s', hrest, hoptions', b''⟩ := ih b'
    rw [List.length_append, List.length_singleton] at hrest
    rw [hoptions, ← List.append_cons] at b''
    refine ⟨s', ?_, hoptions'.trans hoptions, b''⟩
    rw [List.length_cons, applyLines, hrun, ← hrest]

/-- The tokens of the lines of a script, in their order. -/
def scriptTokens (script : Script hash) : List (List Token) :=
  lineTokens script.symbols.names script.lines.toList

theorem tokenizeLines_of_stores (b : s.tokens.Stores m []) :
    s.tokenizeLines.2.options = s.options ∧
      if ((scriptTokens s.script).map List.length).sum + m.card ≤ maxLive then
        s.tokenizeLines.1 = .ok () ∧ s.tokenizeLines.2.tokens.Stores m (scriptTokens s.script)
      else
        s.tokenizeLines.1 = .error .exhausted ∧ s.tokenizeLines.2.tokens.pool.live = maxLive ∧
          ∃ m', s.tokenizeLines.2.tokens.Stores m'
            (fitting (maxLive - m.card) (scriptTokens s.script)) := by
  obtain ⟨htokens, hheld⟩ := b.of_nil
  obtain ⟨lost, stored, hresult⟩ :=
    TokenLines.Stores.addLines hheld s.script.symbols.names s.script.lines.toList
  have hlive : m.card ≤ maxLive := by
    rw [← hheld.live]
    exact hheld.live_le
  rw [← htokens] at stored hresult
  refine ⟨by rw [tokenizeLines_eq], ?_⟩
  rw [tokenizeLines_eq]
  unfold scriptTokens
  split
  · next hfits =>
    have hall : fitting (maxLive - m.card) (lineTokens _ _) = _ :=
      TokenLines.fitting_of_sum_le (Nat.le_sub_of_add_le hfits)
    rw [hall, if_pos (TokenLines.length_lineTokens _ _)] at hresult
    obtain ⟨hok, rfl⟩ := hresult
    rw [hall, add_zero] at stored
    exact ⟨hok, stored⟩
  · next hfull =>
    rw [if_neg] at hresult
    · exact ⟨hresult.1, hresult.2, _, stored⟩
    · intro hlength
      rw [← TokenLines.length_lineTokens s.script.symbols.names s.script.lines.toList] at hlength
      have hsum := TokenLines.sum_le_of_fitting hlength
      omega

/-- The pool fails only when it is full, and pragmas never make it fail. -/
theorem analyse_of_stores (b : s.tokens.Stores m []) :
    s.analyse.2.options = s.options ∧
      if ((scriptTokens s.script).map List.length).sum + m.card ≤ maxLive then
        s.analyse.1 = .ok () ∧
          s.analyse.2.tokens.Stores m ((scriptTokens s.script).map (keptTokens s.options))
      else
        s.analyse.1 = .error .exhausted ∧ s.analyse.2.tokens.pool.live = maxLive ∧
          ∃ m', s.analyse.2.tokens.Stores m'
            (fitting (maxLive - m.card) (scriptTokens s.script)) := by
  obtain ⟨hoptions, htokenize⟩ := tokenizeLines_of_stores b
  unfold analyse
  rcases hrun : s.tokenizeLines with ⟨_ | _, t⟩ <;> rw [hrun] at hoptions htokenize <;>
    split at htokenize
  · cases htokenize.1
  · next hfull =>
    rw [if_neg hfull]
    exact ⟨hoptions, htokenize⟩
  · next hfits =>
    have stored : t.tokens.Stores m ([] ++ scriptTokens s.script) := htokenize.2
    obtain ⟨s', happly, hoptions', stored'⟩ := applyLines_of_stores stored
    have hlength : t.tokens.lists.length = (scriptTokens s.script).length := stored.length_lists
    have hoptions : t.options = s.options := hoptions
    rw [List.length_nil, ← hlength] at happly
    rw [if_pos hfits]
    dsimp only
    rw [happly, ← hoptions]
    exact ⟨hoptions', rfl, stored'⟩
  · cases htokenize.1

theorem options_writeCombined (s : Session hash) (tree : FileTree) :
    (s.writeCombined tree).1.options = s.options := by
  obtain ⟨es, -, hwrite⟩ := writeCombined_eq s tree
  rw [hwrite]

/-- The tokens of the script before are given up, and the script is read and analysed. Where the
pool cannot hold the tokens of all lines, it is full afterwards. -/
theorem load_of_stores (b : s.tokens.Stores m lines) (tree : FileTree) (path : Path) :
    let tss := scriptTokens (s.readScript tree path)
    let loaded := s.load tree path
    loaded.session.options = s.options ∧
      loaded.session.script.lines = (s.readScript tree path).lines ∧
      if (tss.map List.length).sum + m.card ≤ maxLive then
        (∀ e, loaded.result ≠ .error (.pool e)) ∧
          loaded.session.tokens.Stores m (tss.map (keptTokens s.options))
      else
        loaded.result = .error (.pool .exhausted) ∧ loaded.session.tokens.pool.live = maxLive ∧
          ∃ m', loaded.session.tokens.Stores m' (fitting (maxLive - m.card) tss) := by
  obtain ⟨pool, hreset, b'⟩ := reset_of_stores b
  obtain ⟨es, -, hscript, htokens⟩ := writeCombined_cases (s.reading pool tree path) tree
  have hoptions := options_writeCombined (s.reading pool tree path) tree
  rcases hwrite : (s.reading pool tree path).writeCombined tree with ⟨u, written⟩
  rw [hwrite] at hscript htokens hoptions
  have hscript : u.script = (s.readScript tree path).addErrors es := hscript
  have hoptions : u.options = s.options := hoptions
  have stored : u.tokens.Stores m [] := (show u.tokens = ⟨pool, []⟩ from htokens) ▸ b'
  have htss : scriptTokens u.script = scriptTokens (s.readScript tree path) := by
    rw [hscript]
    rfl
  obtain ⟨hkept, hanalyse⟩ := analyse_of_stores stored
  rw [htss, hoptions] at hanalyse
  obtain ⟨names, found, hanalysed⟩ := script_analyse u
  intro tss loaded
  have hloaded : loaded = _ := load_of_written hreset hwrite
  rw [hloaded]
  refine ⟨hkept.trans hoptions, ?_, ?_⟩
  · rw [hanalysed, hscript]
    rfl
  split at hanalyse
  · next hfits =>
    rw [if_pos hfits, hanalyse.1]
    refine ⟨fun e => ?_, hanalyse.2⟩
    unfold verdict
    dsimp only
    split
    · nofun
    · nofun
  · next hfull =>
    rw [if_neg hfull, hanalyse.1]
    exact ⟨rfl, hanalyse.2⟩

/-- Tokens are lost only when the pool is full. -/
theorem loadAll_of_stores (b : s.tokens.Stores m lines) (calls : List (FileTree × Path)) :
    (s.loadAll calls).options = s.options ∧
      ∃ m' lines', (s.loadAll calls).tokens.Stores m' lines' ∧
        (.error (.pool .exhausted) ∉ s.results calls → m' = m) := by
  induction calls generalizing s m lines with
  | nil => exact ⟨rfl, m, lines, b, fun _ => rfl⟩
  | cons call calls ih =>
    obtain ⟨tree, path⟩ := call
    obtain ⟨hoptions, -, hload⟩ := load_of_stores b tree path
    split at hload
    · obtain ⟨hoptions', m', lines', b', hlost⟩ := ih hload.2
      refine ⟨hoptions'.trans hoptions, m', lines', b', fun hno => hlost fun hmem => hno ?_⟩
      exact List.mem_cons_of_mem _ hmem
    · obtain ⟨hfull, -, _, stored⟩ := hload
      obtain ⟨hoptions', m', lines', b', -⟩ := ih stored
      refine ⟨hoptions'.trans hoptions, m', lines', b', fun hno => absurd ?_ hno⟩
      exact List.mem_cons.mpr (.inl hfull.symm)

/-- Whatever was loaded before, a script whose tokens fit into the pool is never refused by it. Each
line then shows the tokens that it is made of, but for the pragmas that were to be consumed. The
tokens are objects held once each, and nothing else is in the pool, unless an earlier script filled
it. -/
theorem load_accounted (o : Options hash) (calls : List (FileTree × Path)) (tree : FileTree)
    (path : Path) :
    let s := (new o).loadAll calls
    let loaded := s.load tree path
    let tss := lineTokens (s.readScript tree path).symbols.names loaded.session.script.lines.toList
    ∃ lost, (.error (.pool .exhausted) ∉ (new o).results calls → lost = 0) ∧
      if (tss.map List.length).sum + lost ≤ maxLive then
        (∀ e, loaded.result ≠ .error (.pool e)) ∧
          loaded.session.tokens.lists.length = loaded.session.script.lines.size ∧
          loaded.session.tokens.Accounted lost (tss.map (keptTokens o))
      else loaded.result = .error (.pool .exhausted) := by
  intro s loaded tss
  obtain ⟨hoptions, m, lines, b, hlost⟩ :=
    loadAll_of_stores (s := new o) TokenLines.stores_empty calls
  obtain ⟨-, hlines, hload⟩ := load_of_stores b tree path
  have htss : tss = scriptTokens (s.readScript tree path) :=
    congrArg (fun lines => lineTokens _ lines.toList) hlines
  refine ⟨m.card, fun hno => by rw [hlost hno, Multiset.card_zero], ?_⟩
  rw [htss]
  split at hload
  · next hfits =>
    rw [if_pos hfits]
    obtain ⟨hresult, stored⟩ := hload
    rw [hoptions] at stored
    refine ⟨hresult, ?_, stored.accounted⟩
    rw [stored.length_lists, List.length_map, ← htss, TokenLines.length_lineTokens,
      Array.length_toList]
  · next hfull =>
    rw [if_neg hfull]
    exact hload.1

/-- A script with two pragmas, one of which holds for the whole script. -/
def leveledScript : FileTree where
  entries := [(["s".toList], .directory), (["s".toList, "a.lemon".toList],
    .file "x + 1 //# script-feature-level(2)\n//# once\n\"y".toUTF8)]
  workingDirectory := ["s".toList]

theorem load_accounted_leveled :
    let o : Options .standard := { (.default : Options .standard) with consumePragmas := true }
    let calls := [(leveledScript, "a.lemon".toList)]
    let loaded := ((new o).loadAll calls).load leveledScript "a.lemon".toList
    (∀ e, loaded.result ≠ .error (.pool e)) ∧
      loaded.session.tokens.Accounted 0
        [[.identifier "x", .operator .add, .constant (.integer 1)], [.pragma "once"], []] := by
  intro o calls
  obtain ⟨lost, hlost, h⟩ := load_accounted o calls leveledScript "a.lemon".toList
  let tss : List (List Token) :=
    [[.identifier "x", .operator .add, .constant (.integer 1), .pragma "script-feature-level(2)"],
      [.pragma "once"], []]
  have hresults : .error (.pool .exhausted) ∉ (new o).results calls := by decide +kernel
  have htss : lineTokens (((new o).loadAll calls).readScript leveledScript
      "a.lemon".toList).symbols.names (((new o).loadAll calls).load leveledScript
      "a.lemon".toList).session.script.lines.toList = tss := by decide +kernel
  have hkept : tss.map (keptTokens o) =
      [[.identifier "x", .operator .add, .constant (.integer 1)], [.pragma "once"], []] := by
    decide +kernel
  have hfits : (tss.map List.length).sum + 0 ≤ maxLive := by decide
  obtain rfl := hlost hresults
  rw [htss, hkept, if_pos hfits] at h
  exact ⟨h.1, h.2.2⟩

end Session
end ScriptFront
