import ScriptFront.Proofs.Pool.HeldOnce
import ScriptFront.Proofs.Session.TokenHolds

/-! The tokens that the lines of a text show. Lines are tokenized one after the other as long as their
tokens fit into the pool, and the pool is seen in nothing else. -/
namespace ScriptFront

open Pool (maxLive)

variable {hash : NameHash} {pool : TokenPool} {m : Multiset Handle}

namespace TokenList

variable {l : TokenList}

theorem live_eq (b : pool.HeldOnce (l.handles + m)) :
    pool.live = (l.values pool).length + m.card := by
  rw [b.live, Multiset.card_add, Multiset.coe_card, HandleList.length_values]

/-- The parts of a line become what they become without a pool, if their tokens fit into the pool
all together. -/
theorem addParts_cases (b : pool.HeldOnce (l.handles + m)) (names : Interner hash)
    (xs : List (Nat × Lexeme)) :
    let r := Lexeme.resolve names xs
    ∃ l' q, q.HeldOnce (l'.handles + m) ∧ (∀ h ∈ m, q.get h = pool.get h) ∧
      (pool.live + r.tokens.length ≤ maxLive ∧
          l.addParts pool names xs = ⟨.ok (), l', q, r.names, r.errors⟩ ∧
          l'.values q = l.values pool ++ r.tokens.map .ok ∨
        maxLive < pool.live + r.tokens.length ∧ q.live = maxLive ∧ ∃ names' errors,
          l.addParts pool names xs = ⟨.error .exhausted, l', q, names', errors⟩) := by
  induction xs generalizing l pool names with
  | nil =>
    refine ⟨l, pool, b, fun _ _ => rfl, .inl ⟨b.live_le, rfl, ?_⟩⟩
    exact (List.append_nil _).symm
  | cons x xs ih =>
    obtain ⟨offset, x⟩ := x
    rcases hmake : x.make names offset with ⟨e | t, names'⟩
    · obtain ⟨l', q, b', hkept, hrest⟩ := ih b names'
      simp only [Lexeme.resolve, hmake, LexResult.addError, addParts_of_fault hmake]
      refine ⟨l', q, b', hkept, ?_⟩
      obtain ⟨hfits, hrun, hv⟩ | ⟨hfull, hlive, names'', errors, hrun⟩ := hrest
      · exact .inl ⟨hfits, by rw [hrun], hv⟩
      · exact .inr ⟨hfull, hlive, names'', e :: errors, by rw [hrun]⟩
    · simp only [Lexeme.resolve, hmake, LexResult.addToken, List.length_cons, List.map_cons]
      rcases HandleList.createBack_cases b t with
        ⟨hfull, q, he, b', hkept⟩ | ⟨-, h, l', q, hq, b', hv, hkept⟩
      · exact ⟨l, q, b', fun h _ => hkept h, .inr ⟨by omega, (b'.live.trans b.live.symm).trans hfull,
          names', [], addParts_of_refused hmake he xs⟩⟩
      · have hlive : q.live + (Lexeme.resolve names' xs).tokens.length =
            pool.live + ((Lexeme.resolve names' xs).tokens.length + 1) := by
          rw [live_eq b', live_eq b, hv, List.length_append, List.length_singleton]
          omega
        obtain ⟨l'', q', b'', hkept', hrest⟩ := ih b' names'
        rw [hlive, hv, List.append_assoc, List.singleton_append] at hrest
        rw [addParts_of_token hmake hq]
        exact ⟨l'', q', b'', fun h' hm => (hkept' h' hm).trans (hkept h' hm), hrest⟩

theorem ofLine_cases (b : pool.HeldOnce m) (names : Interner hash) (line : Line) :
    let r := tokenize names line
    ∃ l q, q.HeldOnce (l.handles + m) ∧ (∀ h ∈ m, q.get h = pool.get h) ∧
      (pool.live + r.tokens.length ≤ maxLive ∧
          ofLine pool names line = ⟨.ok (), l, q, r.names, r.errors⟩ ∧
          l.values q = r.tokens.map .ok ∨
        maxLive < pool.live + r.tokens.length ∧ q.live = maxLive ∧ ∃ names' errors,
          ofLine pool names line = ⟨.error .exhausted, l, q, names', errors⟩) :=
  addParts_cases (l := .empty) (by simpa [HandleList.empty] using b) names (lexemes 0 line)

end TokenList

namespace TokenLines

variable {t : TokenLines} {lines : List (List Token)}

/-- The lines show these tokens. The objects of the pool are theirs and those that `m` holds. -/
structure Stores (t : TokenLines) (m : Multiset Handle) (lines : List (List Token)) : Prop where
  heldOnce : t.pool.HeldOnce (holds t.lists + m)
  values : t.lists.map (·.values t.pool) = lines.map (·.map .ok)

theorem stores_empty : empty.Stores 0 [] := ⟨Pool.heldOnce_empty, rfl⟩

/-- The tokens of the lines, one after the other. -/
def lineTokens (names : Interner hash) : List Line → List (List Token)
  | [] => []
  | line :: lines =>
    let r := tokenize names line
    r.tokens :: lineTokens r.names lines

/-- The first lines whose tokens fit all together into so many places. -/
def fitting : Nat → List (List Token) → List (List Token)
  | _, [] => []
  | places, ts :: rest =>
    if ts.length ≤ places then ts :: fitting (places - ts.length) rest else []

/-- The lines are tokenized up to the first one that does not fit into the pool. The tokens of that line
which did fit are lost: nothing ever gives them up, and the pool is full. -/
theorem addLines_cases (b : t.pool.HeldOnce m) (names : Interner hash) (index : Nat)
    (lines : List Line) :
    let r := t.addLines names index lines
    let kept := fitting (maxLive - t.pool.live) (lineTokens names lines)
    ∃ new lost, r.tokens.lists = new ++ t.lists ∧
      r.tokens.pool.HeldOnce (holds new + (m + lost)) ∧
      (∀ h ∈ m, r.tokens.pool.get h = t.pool.get h) ∧
      new.map (·.values r.tokens.pool) = kept.map (·.map .ok) ∧
      if kept.length = lines.length then r.result = .ok () ∧ lost = 0
      else r.result = .error .exhausted ∧ r.tokens.pool.live = maxLive := by
  induction lines generalizing t m names index with
  | nil =>
    exact ⟨[], 0, rfl, by simpa [addLines] using b, fun _ _ => rfl, rfl, rfl, rfl⟩
  | cons line lines ih =>
    obtain ⟨l, q, b', hkept, hline⟩ := TokenList.ofLine_cases b names line
    unfold addLines lineTokens fitting
    rcases hline with ⟨hfits, hrun, hv⟩ | ⟨hfull, hlive, names', errors, hrun⟩
    · have hplaces : maxLive - q.live =
          maxLive - t.pool.live - (tokenize names line).tokens.length := by
        have hlive := TokenList.live_eq b'
        rw [hv, List.length_map, ← b.live] at hlive
        omega
      obtain ⟨new, lost, hlists, b'', hkept', hvalues, hresult⟩ :=
        ih (t := ⟨q, t.lists⟩) b' (tokenize names line).names (index + 1)
      rw [hplaces] at hvalues hresult
      simp only [hrun, if_pos (Nat.le_sub_of_add_le' hfits)]
      refine ⟨l :: new, lost, by rw [hlists]; rfl, ?_, fun h hm => ?_, ?_, ?_⟩
      · rw [add_assoc (l.handles : Multiset Handle)] at b''
        rwa [holds_cons, add_assoc, add_left_comm]
      · rw [hkept' h (Multiset.mem_add.mpr (.inr hm)), hkept h hm]
      · -- the later lines leave the values of this one as they are
        have hfirst := HandleList.values_congr fun h hh => hkept' h (Multiset.mem_add.mpr (.inl hh))
        rw [List.map_cons, List.map_cons, hvalues, hfirst, hv]
      · simpa only [List.length_cons, Nat.add_right_cancel_iff] using hresult
    · simp only [hrun, if_neg (Nat.not_le.mpr (Nat.sub_lt_left_of_lt_add b.live_le hfull))]
      exact ⟨[], l.handles, rfl, by simpa [add_comm] using b', hkept, rfl, by simpa using hlive⟩

theorem mem_holds {lists : List TokenList} {l : TokenList} (hl : l ∈ lists) {h : Handle}
    (hh : h ∈ l.handles) : h ∈ holds lists := by
  induction lists with
  | nil => cases hl
  | cons first lists ih =>
    rw [holds_cons, Multiset.mem_add]
    rcases List.mem_cons.mp hl with rfl | hl
    · exact .inl hh
    · exact .inr (ih hl)

theorem clearLists_heldOnce {lists : List TokenList} (b : pool.HeldOnce (holds lists + m)) :
    ∃ lists' q, clearLists pool lists = (.ok (), lists', q) ∧ q.HeldOnce m := by
  induction lists generalizing pool with
  | nil => exact ⟨[], pool, rfl, by simpa using b⟩
  | cons l lists ih =>
    rw [holds_cons, add_assoc] at b
    obtain ⟨q, hrun, b', -⟩ := HandleList.releaseAll_heldOnce b
    obtain ⟨lists', q', hrest, b''⟩ := ih b'
    refine ⟨.empty :: lists', q', ?_, b''⟩
    simp only [clearLists, HandleList.clear, hrun, hrest]

/-- The tokens with the given positions are taken out. -/
def without (positions : List Nat) (ts : List Token) : List Token :=
  (ts.zipIdx.filter (!positions.contains ·.2)).map Prod.fst

namespace Stores

theorem ofPool (b : pool.HeldOnce m) : Stores ⟨pool, []⟩ m [] := ⟨by simpa using b, rfl⟩

theorem clear (b : t.Stores m lines) :
    ∃ q, t.clear = (.ok (), ⟨q, []⟩) ∧ Stores ⟨q, []⟩ m [] := by
  obtain ⟨lists, q, hrun, b'⟩ := clearLists_heldOnce b.heldOnce
  exact ⟨q.shrink.2, by simp only [TokenLines.clear, hrun], .ofPool b'.shrink.1⟩

/-- A text that has no lines. -/
theorem of_nil (b : t.Stores m []) : t = ⟨t.pool, []⟩ ∧ t.pool.HeldOnce m := by
  have hlists : t.lists = [] := List.map_eq_nil_iff.mp b.values
  have hheld := b.heldOnce
  rw [hlists, holds_nil, zero_add] at hheld
  exact ⟨congrArg (TokenLines.mk t.pool) hlists, hheld⟩

/-- Lines are added to a text that has none. -/
theorem addLines (b : pool.HeldOnce m) (names : Interner hash) (lines : List Line) :
    let r := TokenLines.addLines ⟨pool, []⟩ names 0 lines
    let kept := fitting (maxLive - m.card) (lineTokens names lines)
    ∃ lost, r.tokens.Stores (m + lost) kept ∧
      if kept.length = lines.length then r.result = .ok () ∧ lost = 0
      else r.result = .error .exhausted ∧ r.tokens.pool.live = maxLive := by
  obtain ⟨new, lost, hlists, b', -, hvalues, hresult⟩ :=
    addLines_cases (t := ⟨pool, []⟩) b names 0 lines
  rw [b.live] at hvalues hresult
  rw [List.append_nil] at hlists
  exact ⟨lost, ⟨by rwa [hlists], by rw [hlists]; exact hvalues⟩, hresult⟩

theorem length_lists (b : t.Stores m lines) : t.lists.length = lines.length := by
  rw [← List.length_map (f := (·.values t.pool)), b.values, List.length_map]

theorem getElem?_values (b : t.Stores m lines) (index : Nat) :
    t.lists[index]?.map (·.values t.pool) = lines[index]?.map (·.map .ok) := by
  rw [← List.getElem?_map, b.values, List.getElem?_map]

theorem line_eq (b : t.Stores m lines) (index : Nat) :
    t.line index = .ok (lines[index]?.getD []) := by
  have hall (ts : List Token) : (ts.map Except.ok).mapM id = (.ok ts : Except PoolError _) := by
    induction ts with
    | nil => rfl
    | cons t ts ih =>
      rw [List.map_cons, List.mapM_cons, ih]
      rfl
  have hvalues := b.getElem?_values index
  unfold line
  rcases hl : t.lists[index]? with _ | l
  · rw [hl, Option.map_none, eq_comm, Option.map_eq_none_iff] at hvalues
    rw [hvalues]
    rfl
  · rw [hl, Option.map_some, eq_comm, Option.map_eq_some_iff] at hvalues
    obtain ⟨ts, hts, heq⟩ := hvalues
    show (l.values t.pool).mapM id = _
    rw [hts, ← heq, hall]
    rfl

/-- Tokens are taken out of a line, and no other line notices. -/
theorem eraseIndices (b : t.Stores m lines) {index : Nat} {l : TokenList}
    (hl : t.lists[index]? = some l) {ts : List Token} (hts : lines[index]? = some ts)
    (positions : List Nat) :
    let r := l.eraseIndices t.pool positions
    r.result = .ok () ∧
      Stores ⟨r.pool, t.lists.set index r.list⟩ m (lines.set index (without positions ts)) := by
  obtain ⟨hlt, rfl⟩ := List.getElem?_eq_some_iff.mp hl
  have hheld := b.heldOnce
  have hself := holds_set hlt t.lists[index]
  rw [List.set_getElem_self] at hself
  rw [hself, add_assoc] at hheld
  obtain ⟨l', q, hrun, hlist, b', hkept⟩ := HandleList.eraseIndices_heldOnce hheld positions
  have hvalues := b.getElem?_values index
  rw [hl, hts, Option.map_some, Option.map_some, Option.some.injEq] at hvalues
  intro r
  have hr : r = _ := hrun
  rw [hr]
  refine ⟨rfl, ?_, ?_⟩
  · rw [holds_set hlt, add_assoc]
    exact b'
  · have hothers (x : List (Except PoolError Token)) :
        (t.lists.map (·.values q)).set index x = (t.lists.map (·.values t.pool)).set index x := by
      refine List.ext_getElem (by simp) fun k hk hk' => ?_
      rw [List.getElem_set, List.getElem_set]
      split
      · rfl
      · next hne =>
        simp only [List.getElem_map]
        refine HandleList.values_congr fun h hh => hkept h ?_
        have hmem := List.mem_eraseIdx_iff_getElem.mpr ⟨k, by simpa using hk, Ne.symm hne, rfl⟩
        exact Multiset.mem_add.mpr (.inr (Multiset.mem_add.mpr (.inl (mem_holds hmem hh))))
    have hown : l'.handles.map q.get = (without positions ts).map .ok := by
      have hsame := List.map_congr_left fun h hh => hkept h (Multiset.mem_add.mpr (.inl hh))
      have hhandles : t.lists[index].handles.map t.pool.get = ts.map .ok := hvalues
      rw [hsame, hlist, HandleList.map_selectFrom, hhandles, List.zipIdx_map, List.filter_map, without,
        List.map_map, List.map_map]
      rfl
    rw [List.map_set, List.map_set, ← b.values, hothers]
    exact congrArg _ hown

end Stores

end TokenLines
end ScriptFront
