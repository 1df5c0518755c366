import ScriptFront.Proofs.Pool.Holds
import ScriptFront.Token.Lines
import Mathlib.Algebra.BigOperators.Group.List.Basic
import Mathlib.Algebra.Order.Group.Multiset

/-! Who holds the tokens of a text. Each line holds its tokens once. Tokens whose line was given up when
the pool was full are held for ever, but they do no harm: no line holds a token that is dead, so the
lines can always be cleared. -/
namespace ScriptFront

namespace TokenList

variable {hash : NameHash} {l l' : TokenList} {pool q : TokenPool} {names names' : Interner hash}
  {offset : Nat} {x : Lexeme}

theorem addParts_of_fault {e : LexError} (hmake : x.make names offset = (.error e, names'))
    (xs : List (Nat × Lexeme)) :
    l.addParts pool names ((offset, x) :: xs) =
      { l.addParts pool names' xs with errors := e :: (l.addParts pool names' xs).errors } := by
  rw [addParts, hmake]

theorem addParts_of_token {t : Token} {h : Handle} (hmake : x.make names offset = (.ok t, names'))
    (hcreate : l.createBack pool t = ⟨.ok h, l', q⟩) (xs : List (Nat × Lexeme)) :
    l.addParts pool names ((offset, x) :: xs) = addParts l' q names' xs := by
  simp only [addParts, hmake, hcreate]

theorem addParts_of_refused {t : Token} {e : PoolError}
    (hmake : x.make names offset = (.ok t, names'))
    (hcreate : l.createBack pool t = ⟨.error e, l', q⟩) (xs : List (Nat × Lexeme)) :
    l.addParts pool names ((offset, x) :: xs) = ⟨.error e, l', q, names', []⟩ := by
  simp only [addParts, hmake, hcreate]

theorem addParts_heldBy {m : Multiset Handle} (b : pool.HeldBy (l.handles + m))
    (names : Interner hash) (xs : List (Nat × Lexeme)) :
    (l.addParts pool names xs).pool.HeldBy ((l.addParts pool names xs).list.handles + m) := by
  induction xs generalizing l pool names with
  | nil => exact b
  | cons x xs ih =>
    obtain ⟨offset, x⟩ := x
    rcases hmake : x.make names offset with ⟨e | t, names'⟩
    · rw [addParts_of_fault hmake]
      exact ih b names'
    · have hstep := (HandleList.step_sound b (.createBack t)).heldBy b
      change (l.createBack pool t).pool.HeldBy ((l.createBack pool t).list.handles + m) at hstep
      rcases hcreate : l.createBack pool t with ⟨_ | _, l', q⟩ <;> rw [hcreate] at hstep
      · rw [addParts_of_refused hmake hcreate]
        exact hstep
      · rw [addParts_of_token hmake hcreate]
        exact ih hstep names'

/-- A line whose tokens all come into the pool becomes what it becomes without one. -/
theorem addParts_of_ok {xs : List (Nat × Lexeme)}
    (hok : (l.addParts pool names xs).result = .ok ()) :
    (l.addParts pool names xs).names = (Lexeme.resolve names xs).names ∧
      (l.addParts pool names xs).errors = (Lexeme.resolve names xs).errors := by
  induction xs generalizing l pool names with
  | nil => exact ⟨rfl, rfl⟩
  | cons x xs ih =>
    obtain ⟨offset, x⟩ := x
    rcases hmake : x.make names offset with ⟨e | t, names'⟩
    · rw [addParts_of_fault hmake] at hok ⊢
      rw [Lexeme.resolve, hmake]
      exact ⟨(ih hok).1, congrArg (e :: ·) (ih hok).2⟩
    · rcases hcreate : l.createBack pool t with ⟨_ | _, l', q⟩
      · rw [addParts_of_refused hmake hcreate] at hok
        cases hok
      · rw [addParts_of_token hmake hcreate] at hok ⊢
        rw [Lexeme.resolve, hmake]
        exact ih hok

end TokenList

namespace TokenLines

variable {hash : NameHash} {m : Multiset Handle} {t : TokenLines}

/-- The holds of all lines. -/
def holds (lists : List TokenList) : Multiset Handle :=
  (lists.map fun l => (l.handles : Multiset Handle)).sum

@[simp] theorem holds_nil : holds [] = 0 := rfl

@[simp] theorem holds_cons (l : TokenList) (lists : List TokenList) :
    holds (l :: lists) = (l.handles : Multiset Handle) + holds lists := by simp [holds]

/-- The lines hold their tokens, and `m` are the other holds. -/
def Held (t : TokenLines) (m : Multiset Handle) : Prop := t.pool.HeldBy (holds t.lists + m)

theorem held_empty : empty.Held 0 := by
  unfold Held
  simpa [empty] using Pool.heldBy_empty

/-- Tokenizing gives up no hold, whether it comes to an end or not. -/
theorem held_addLines (b : t.Held m) (names : Interner hash) (index : Nat) (lines : List Line) :
    ∃ lost, (t.addLines names index lines).tokens.Held (m + lost) := by
  induction lines generalizing t m names index with
  | nil => exact ⟨0, by simpa [addLines] using b⟩
  | cons line lines ih =>
    have hline := TokenList.addParts_heldBy (l := .empty) (m := holds t.lists + m)
      (by simpa [HandleList.empty, Held] using b) names (lexemes 0 line)
    rcases hrun : TokenList.addParts .empty t.pool names (lexemes 0 line) with
      ⟨_ | _, l, pool, names', errors⟩ <;> rw [hrun] at hline <;>
      simp only [addLines, TokenList.ofLine, hrun]
    · refine ⟨l.handles, ?_⟩
      rwa [add_comm, add_assoc] at hline
    · -- to the lines that follow, the holds of this line are holds of others
      rw [add_left_comm] at hline
      obtain ⟨lost, hrest⟩ := ih (t := ⟨pool, t.lists⟩) hline names' (index + 1)
      refine ⟨lost, ?_⟩
      rwa [Held, add_assoc, add_left_comm, ← add_assoc, ← holds_cons] at hrest

/-- No line holds a dead token, so all lines are emptied. -/
theorem clearLists_cases {pool : TokenPool} {lists : List TokenList}
    (b : pool.HeldBy (holds lists + m)) :
    ∃ lists' pool', clearLists pool lists = (.ok (), lists', pool') ∧ pool'.HeldBy m := by
  induction lists generalizing pool with
  | nil => exact ⟨[], pool, rfl, by simpa using b⟩
  | cons l lists ih =>
    rw [holds_cons, add_assoc] at b
    obtain ⟨pool', hrun, b'⟩ := HandleList.releaseAll_cases b
    obtain ⟨lists', pool'', hrest, b''⟩ := ih b'
    refine ⟨.empty :: lists', pool'', ?_, b''⟩
    simp only [clearLists, HandleList.clear, hrun, hrest]

theorem clear_cases (b : t.Held m) : ∃ pool, t.clear = (.ok (), ⟨pool, []⟩) ∧ pool.HeldBy m := by
  obtain ⟨lists, pool, hrun, b'⟩ := clearLists_cases b
  refine ⟨pool.shrink.2, ?_, b'.shrink⟩
  simp only [clear, hrun]

theorem holds_set {lists : List TokenList} {index : Nat} (h : index < lists.length)
    (l : TokenList) :
    holds (lists.set index l) = (l.handles : Multiset Handle) + holds (lists.eraseIdx index) := by
  rw [← holds_cons]
  exact ((List.set_perm_cons_eraseIdx h l).map _).sum_eq

/-- Taking entries out of a line gives up their holds and no others. -/
theorem held_eraseIndices (b : t.Held m) {index : Nat} {l : TokenList}
    (hl : t.lists[index]? = some l) (positions : List Nat) :
    Held ⟨(l.eraseIndices t.pool positions).pool,
      t.lists.set index (l.eraseIndices t.pool positions).list⟩ m := by
  obtain ⟨hlt, rfl⟩ := List.getElem?_eq_some_iff.mp hl
  have hself := holds_set hlt t.lists[index]
  rw [List.set_getElem_self] at hself
  unfold Held at b ⊢
  rw [hself, add_assoc] at b
  rw [holds_set hlt, add_assoc]
  exact (HandleList.step_sound b (.eraseIndices positions)).heldBy b

end TokenLines
end ScriptFront
