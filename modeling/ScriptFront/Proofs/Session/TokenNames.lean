import ScriptFront.Proofs.Session.TokenValues
import ScriptFront.Proofs.Token.Refusal

/-! The same lines, tokenized with different tables of names. The tables are seen in nothing, as long
as they refuse the same texts of the lines. -/
namespace ScriptFront

open Pool (maxLive)

variable {hash : NameHash} {W : Set String} {r names names' : Interner hash}
  {pool pool' : TokenPool} {m m' : Multiset Handle}

namespace TokenList

variable {l l' : TokenList}

/-- The texts that are entered in the table of names while the tokens of parts are put in a list:
those of all parts up to the one whose token the pool has no room for. -/
def offered (l : TokenList) (pool : TokenPool) (names : Interner hash) :
    List (Nat × Lexeme) → List String
  | [] => []
  | (offset, x) :: xs =>
    x.text?.toList ++
      match x.make names offset with
      | (.error _, names) => offered l pool names xs
      | (.ok t, names) =>
        match l.createBack pool t with
        | ⟨.error _, _, _⟩ => []
        | ⟨.ok _, l, pool⟩ => offered l pool names xs

/-- Two pools have room for the same tokens of a line if they have equally many places, or if the
one with fewer has room for all of them. Whatever the tables know besides, the line is the same. -/
theorem addParts_alike (hW : Set.InjOn hash W) (h : names.Agrees W r) (h' : names'.Agrees W r)
    (b : pool.HeldOnce (l.handles + m)) (b' : pool'.HeldOnce (l'.handles + m'))
    (hlength : l.handles.length = l'.handles.length) {xs : List (Nat × Lexeme)}
    (hroom : m.card = m'.card ∨
      m'.card ≤ m.card ∧ (l.addParts pool names xs).result ≠ .error .exhausted)
    (htexts : ∀ u ∈ l.offered pool names xs, u ∈ W) :
    let one := l.addParts pool names xs
    let other := l'.addParts pool' names' xs
    one.result = other.result ∧ one.errors = other.errors ∧ one.names.Agrees W r ∧
      other.names.Agrees W r ∧ (one.result = .ok () →
        (Lexeme.resolve names xs).tokens = (Lexeme.resolve names' xs).tokens) := by
  induction xs generalizing l l' pool pool' names names' with
  | nil => exact ⟨rfl, rfl, h, h', fun _ => rfl⟩
  | cons x xs ih =>
    obtain ⟨offset, x⟩ := x
    rw [offered, List.forall_mem_append] at htexts
    obtain ⟨hx, hrest⟩ := htexts
    obtain ⟨made, u, u', hmake, hmake', hu, hu'⟩ :=
      Lexeme.make_same hW h h' (fun v hv => hx v (Option.mem_toList.mpr hv)) offset
    rw [Lexeme.resolve, Lexeme.resolve, hmake, hmake']
    rw [hmake] at hrest
    cases made with
    | error e =>
      rw [addParts_of_fault hmake] at hroom ⊢
      rw [addParts_of_fault hmake']
      obtain ⟨hresult, herrors, hnames, hnames', htokens⟩ := ih hu hu' b b' hlength hroom hrest
      exact ⟨hresult, congrArg (e :: ·) herrors, hnames, hnames', htokens⟩
    | ok t =>
      have hcard : pool.live = l.handles.length + m.card := b.live.trans (Multiset.card_add ..)
      have hcard' : pool'.live = l'.handles.length + m'.card := b'.live.trans (Multiset.card_add ..)
      rcases HandleList.createBack_cases b t with
          ⟨hfull, q, he, -⟩ | ⟨hlt, k, l₁, q, hq, b₁, hv, -⟩ <;>
        rcases HandleList.createBack_cases b' t with
          ⟨hfull', q', he', -⟩ | ⟨hlt', k', l₁', q', hq', b₁', hv', -⟩
      · rw [addParts_of_refused hmake he, addParts_of_refused hmake' he']
        refine ⟨rfl, rfl, hu, hu', fun hok => ?_⟩
        cases hok
      · -- only the pool with fewer places can be full alone
        rw [addParts_of_refused hmake he] at hroom
        rcases hroom with hcards | ⟨-, hne⟩
        · omega
        · exact absurd rfl hne
      · rcases hroom with hcards | ⟨hcards, -⟩ <;> omega
      · rw [addParts_of_token hmake hq] at hroom ⊢
        rw [addParts_of_token hmake' hq']
        simp only [hq] at hrest
        have hlength' : l₁.handles.length = l₁'.handles.length := by
          have hone := congrArg List.length hv
          have hother := congrArg List.length hv'
          rw [List.length_append, HandleList.length_values, HandleList.length_values] at hone hother
          rw [hone, hother, hlength]
        obtain ⟨hresult, herrors, hnames, hnames', htokens⟩ := ih hu hu' b₁ b₁' hlength' hroom hrest
        exact ⟨hresult, herrors, hnames, hnames', fun hok => congrArg (t :: ·) (htokens hok)⟩

theorem ofLine_alike (hW : Set.InjOn hash W) (h : names.Agrees W r) (h' : names'.Agrees W r)
    (b : pool.HeldOnce m) (b' : pool'.HeldOnce m') {line : Line}
    (hroom : m.card = m'.card ∨
      m'.card ≤ m.card ∧ (ofLine pool names line).result ≠ .error .exhausted)
    (htexts : ∀ u ∈ offered .empty pool names (lexemes 0 line), u ∈ W) :
    let one := ofLine pool names line
    let other := ofLine pool' names' line
    one.result = other.result ∧ one.errors = other.errors ∧ one.names.Agrees W r ∧
      other.names.Agrees W r ∧ (one.result = .ok () →
        (tokenize names line).tokens = (tokenize names' line).tokens) :=
  have hb : pool.HeldOnce ((HandleList.empty : TokenList).handles + m) := by
    simpa [HandleList.empty] using b
  have hb' : pool'.HeldOnce ((HandleList.empty : TokenList).handles + m') := by
    simpa [HandleList.empty] using b'
  addParts_alike hW h h' hb hb' rfl hroom htexts

end TokenList

namespace TokenLines

/-- The texts that are entered in the table of names while lines are tokenized. -/
def offered (pool : TokenPool) (names : Interner hash) : List Line → List String
  | [] => []
  | line :: lines =>
    TokenList.offered .empty pool names (lexemes 0 line) ++
      match TokenList.ofLine pool names line with
      | ⟨.error _, _, _, _, _⟩ => []
      | ⟨.ok _, _, pool, names, _⟩ => offered pool names lines

theorem length_lineTokens (names : Interner hash) (lines : List Line) :
    (lineTokens names lines).length = lines.length := by
  induction lines generalizing names with
  | nil => rfl
  | cons line lines ih => rw [lineTokens, List.length_cons, List.length_cons, ih]

theorem card_of_values {l : TokenList} {q : TokenPool} {ts : List Token}
    (hv : l.values q = ts.map .ok) :
    ((l.handles : Multiset Handle) + m).card = m.card + ts.length := by
  have hlength := congrArg List.length hv
  rw [HandleList.length_values, List.length_map] at hlength
  rw [Multiset.card_add, Multiset.coe_card, hlength, add_comm]

theorem addLines_exhausted {index : Nat} {line : Line} {lines : List Line}
    (h : (TokenList.ofLine pool names line).result = .error .exhausted) :
    (addLines ⟨pool, []⟩ names index (line :: lines)).result = .error .exhausted := by
  rcases hrun : TokenList.ofLine pool names line with ⟨_ | _, l, q, names', errors⟩ <;>
    rw [hrun] at h
  · simp only [addLines, hrun]
    exact h
  · cases h

/-- All that tokenizing tells of lines is the same, and the pools have room for the same ones. -/
theorem addLines_same (hW : Set.InjOn hash W) (h : names.Agrees W r) (h' : names'.Agrees W r)
    (b : pool.HeldOnce m) (b' : pool'.HeldOnce m') {index : Nat} {lines : List Line}
    (hroom : m.card = m'.card ∨
      m'.card ≤ m.card ∧ (addLines ⟨pool, []⟩ names index lines).result ≠ .error .exhausted)
    (htexts : ∀ u ∈ offered pool names lines, u ∈ W) :
    let one := addLines ⟨pool, []⟩ names index lines
    let other := addLines ⟨pool', []⟩ names' index lines
    one.result = other.result ∧ one.errors = other.errors ∧ one.names.Agrees W r ∧
      other.names.Agrees W r ∧ fitting (maxLive - m.card) (lineTokens names lines) =
        fitting (maxLive - m'.card) (lineTokens names' lines) := by
  induction lines generalizing names names' pool pool' m m' index with
  | nil => exact ⟨rfl, rfl, h, h', rfl⟩
  | cons line lines ih =>
    rw [offered, List.forall_mem_append] at htexts
    obtain ⟨hfirst, hrest⟩ := htexts
    have hline := TokenList.ofLine_alike hW h h' b b'
      (hroom.imp_right fun hc => ⟨hc.1, fun he => hc.2 (addLines_exhausted he)⟩) hfirst
    obtain ⟨l, q, bl, -, hcases⟩ := TokenList.ofLine_cases b names line
    obtain ⟨l', q', bl', -, hcases'⟩ := TokenList.ofLine_cases b' names' line
    rw [b.live] at hcases
    rw [b'.live] at hcases'
    unfold addLines at hroom ⊢
    unfold lineTokens fitting
    rcases hcases with ⟨hfits, hrun, hv⟩ | ⟨hfull, -, _, errors, hrun⟩ <;>
      rcases hcases' with ⟨hfits', hrun', hv'⟩ | ⟨hfull', -, _, errors', hrun'⟩ <;>
      rw [hrun, hrun'] at hline <;> simp only [hrun, hrun'] at hroom hrest ⊢
    · obtain ⟨-, herrors, hnames, hnames', htokens⟩ := hline
      have hsame := htokens rfl
      have hcard := card_of_values (m := m) hv
      have hcard' := card_of_values (m := m') hv'
      rw [← hsame] at hcard' hfits'
      obtain ⟨hresult, herrors', hagrees, hagrees', hfitting⟩ := ih hnames hnames' bl bl'
        (hroom.imp (by omega) fun hc => ⟨by omega, hc.2⟩) hrest
      refine ⟨hresult, ?_, hagrees, hagrees', ?_⟩
      · exact congrArg₂ (fun es fs => es.map (·.atLine index) ++ fs) herrors herrors'
      · rw [← hsame, if_pos (Nat.le_sub_of_add_le' hfits), if_pos (Nat.le_sub_of_add_le' hfits'),
          Nat.sub_sub, Nat.sub_sub, ← hcard, ← hcard', hfitting]
    · cases hline.1
    · cases hline.1
    · obtain ⟨-, -, hnames, hnames', -⟩ := hline
      rw [if_neg (Nat.not_le.mpr (Nat.sub_lt_left_of_lt_add b.card_le hfull)),
        if_neg (Nat.not_le.mpr (Nat.sub_lt_left_of_lt_add b'.card_le hfull'))]
      exact ⟨trivial, trivial, hnames, hnames', rfl⟩

/-- Two pools keep the same lines if they have equally many places for them, or if the lines fit
into the one with fewer. What is lost of a line that does not fit stays in the pool. -/
theorem addLines_alike (hW : Set.InjOn hash W) (h : names.Agrees W r) (h' : names'.Agrees W r)
    (b : pool.HeldOnce m) (b' : pool'.HeldOnce m') {lines : List Line} {one other : Step hash}
    (hone : one = addLines ⟨pool, []⟩ names 0 lines)
    (hother : other = addLines ⟨pool', []⟩ names' 0 lines)
    (hroom : m.card = m'.card ∨ m'.card ≤ m.card ∧ one.result ≠ .error .exhausted)
    (htexts : ∀ u ∈ offered pool names lines, u ∈ W) :
    (other.result = one.result ∧ other.errors = one.errors ∧ one.names.Agrees W r ∧
      other.names.Agrees W r) ∧
      ∃ kept lost lost', one.tokens.Stores (m + lost) kept ∧ other.tokens.Stores (m' + lost') kept ∧
        (one.result = .ok () ∧ lost = 0 ∨ one.result = .error .exhausted) := by
  subst hone hother
  obtain ⟨lost, stored, hlost⟩ := Stores.addLines b names lines
  obtain ⟨lost', stored', -⟩ := Stores.addLines b' names' lines
  obtain ⟨hresult, herrors, hnames, hnames', hkept⟩ := addLines_same hW h h' b b' hroom htexts
  rw [← hkept] at stored'
  refine ⟨⟨hresult.symm, herrors.symm, hnames, hnames'⟩, _, lost, lost', stored, stored', ?_⟩
  split at hlost
  · exact .inl hlost
  · exact .inr hlost.1

end TokenLines
end ScriptFront
