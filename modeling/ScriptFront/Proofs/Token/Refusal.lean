import ScriptFront.Token.Lexer
import Mathlib.Data.Set.Function

/-! Of a table of names, a line of tokens tells only which of its texts the table refuses. As long as
no two texts have one hash, entering texts does not change what is refused of them. -/
namespace ScriptFront

variable {hash : NameHash}

namespace Interner

/-- Another text has the hash of the text. -/
def refuses (t : Interner hash) (text : String) : Bool :=
  (t.get? (hash text)).any (·.text ≠ text)

/-- A new name is found by its hash, and no other hash finds anything new. -/
theorem get?_push (t : Interner hash) (name : Name) (size : Nat) (h : UInt64) :
    let i := shardOf name.hash
    (⟨t.shards.set i (name :: t.shards[i]), size⟩ : Interner hash).get? h =
      if name.hash = h then some name else t.get? h := by
  intro i
  simp only [get?, Fin.getElem_fin, Vector.getElem_set]
  by_cases hh : name.hash = h
  · have hi : i = shardOf h := congrArg shardOf hh
    simp [hi, hh]
  · rw [if_neg hh]
    split
    · next hi =>
      simp [hi, hh]
    · rfl

/-- A text that is refused changes nothing. Any other one is found by its hash from then on, and no
other hash finds anything new. -/
theorem intern_cases (t : Interner hash) (text : String) :
    (t.refuses text = true ∧ ∃ existing, t.intern text = .error ⟨hash text, existing, text⟩) ∨
      (t.refuses text = false ∧ ∃ name t', t.intern text = .ok (name, t') ∧ name.text = text ∧
        ∀ h, t'.get? h = if hash text = h then some name else t.get? h) := by
  unfold refuses
  rcases hfound : t.get? (hash text) with _ | name
  · let name : Name := ⟨t.size, hash text, text⟩
    refine .inr ⟨rfl, name, _, ?_, rfl, get?_push t name (t.size + 1)⟩
    simp only [intern, hfound]
    rfl
  · by_cases htext : name.text = text
    · have hrun : t.intern text = .ok (name, t) := by simp only [intern, hfound, htext, if_true]
      refine .inr ⟨by simp [htext], name, t, hrun, htext, fun h => ?_⟩
      split
      · next hh => rw [← hh, hfound]
      · rfl
    · have hrun : t.intern text = .error ⟨hash text, name.text, text⟩ := by
        simp only [intern, hfound, htext, if_false]
      exact .inl ⟨by simp [htext], name.text, hrun⟩

/-- Of the texts `W`, both tables refuse the same ones. -/
def Agrees (W : Set String) (t r : Interner hash) : Prop := Set.EqOn t.refuses r.refuses W

variable {W : Set String} {t r : Interner hash}

/-- A text is refused by both tables, or it is entered and nothing changes for the texts. -/
theorem Agrees.intern (hW : Set.InjOn hash W) (h : t.Agrees W r) {text : String} (ht : text ∈ W) :
    (r.refuses text = true ∧ ∃ existing, t.intern text = .error ⟨hash text, existing, text⟩) ∨
      (r.refuses text = false ∧ ∃ name t', t.intern text = .ok (name, t') ∧ t'.Agrees W r) := by
  rw [← h ht]
  rcases t.intern_cases text with hrefused | ⟨haccepted, name, t', hrun, hname, hfind⟩
  · exact .inl hrefused
  · refine .inr ⟨haccepted, name, t', hrun, fun u hu => ?_⟩
    rw [← h hu]
    by_cases hh : hash text = hash u
    · obtain rfl : text = u := hW ht hu hh
      rw [haccepted, refuses, hfind, if_pos rfl, Option.any_some, hname]
      simp
    · rw [refuses, hfind, if_neg hh, refuses]

end Interner

open Interner (Agrees)

namespace Lexeme

/-- The text that is entered in the table of names. -/
def text? : Lexeme → Option String
  | stringLiteral text | label text | identifier text => some text
  | token _ | error _ => none

end Lexeme

/-- The texts of a line that are entered in the table of names. -/
def textsOf (line : Line) : List String := (lexemes 0 line).filterMap (·.2.text?)

/-- Both lines of tokens are the same, and both tables are still those of `r` for the texts `W`. -/
structure LexResult.Same (W : Set String) (r : Interner hash) (a b : LexResult hash) : Prop where
  tokens : a.tokens = b.tokens
  errors : a.errors = b.errors
  left : a.names.Agrees W r
  right : b.names.Agrees W r

namespace LexResult.Same

variable {W : Set String} {r : Interner hash} {a b : LexResult hash}

theorem addToken (h : Same W r a b) (t : Token) : Same W r (a.addToken t) (b.addToken t) :=
  ⟨congrArg (t :: ·) h.tokens, h.errors, h.left, h.right⟩

theorem addError (h : Same W r a b) (e : LexError) : Same W r (a.addError e) (b.addError e) :=
  ⟨h.tokens, congrArg (e :: ·) h.errors, h.left, h.right⟩

end LexResult.Same

namespace Lexeme

variable {W : Set String} {r t t' : Interner hash}

theorem enter_same (hW : Set.InjOn hash W) (h : t.Agrees W r) (h' : t'.Agrees W r) {text : String}
    (ht : text ∈ W) (offset : Nat) (token : Token) :
    ∃ made u u', enter t offset text token = (made, u) ∧ enter t' offset text token = (made, u') ∧
      u.Agrees W r ∧ u'.Agrees W r := by
  unfold enter
  rcases h.intern hW ht with ⟨hr, existing, he⟩ | ⟨hr, name, u, hrun, hu⟩
  · rcases h'.intern hW ht with ⟨-, existing', he'⟩ | ⟨hr', -⟩
    · rw [he, he']
      exact ⟨_, t, t', rfl, rfl, h, h'⟩
    · rw [hr] at hr'
      cases hr'
  · rcases h'.intern hW ht with ⟨hr', -⟩ | ⟨-, name', u', hrun', hu'⟩
    · rw [hr] at hr'
      cases hr'
    · rw [hrun, hrun']
      exact ⟨_, u, u', rfl, rfl, hu, hu'⟩

/-- Tables that refuse the same texts make the same of a part. -/
theorem make_same (hW : Set.InjOn hash W) (h : t.Agrees W r) (h' : t'.Agrees W r) {x : Lexeme}
    (hx : ∀ u, x.text? = some u → u ∈ W) (offset : Nat) :
    ∃ made u u', x.make t offset = (made, u) ∧ x.make t' offset = (made, u') ∧
      u.Agrees W r ∧ u'.Agrees W r := by
  cases x with
  | token | error => exact ⟨_, t, t', rfl, rfl, h, h'⟩
  | stringLiteral text | label text | identifier text =>
    exact enter_same hW h h' (hx text rfl) offset _

theorem resolve_same (hW : Set.InjOn hash W) (h : t.Agrees W r) (h' : t'.Agrees W r)
    (xs : List (Nat × Lexeme)) (hxs : ∀ u ∈ xs.filterMap (·.2.text?), u ∈ W) :
    LexResult.Same W r (resolve t xs) (resolve t' xs) := by
  induction xs generalizing t t' with
  | nil => exact ⟨rfl, rfl, h, h'⟩
  | cons x xs ih =>
    obtain ⟨offset, x⟩ := x
    have hx : ∀ u, x.text? = some u → u ∈ W := fun u hu =>
      hxs u (List.mem_filterMap.mpr ⟨_, List.mem_cons_self, hu⟩)
    have hrest : ∀ u ∈ xs.filterMap (·.2.text?), u ∈ W := fun u hu =>
      hxs u (((List.sublist_cons_self _ xs).filterMap _).subset hu)
    obtain ⟨made, u, u', hmade, hmade', hu, hu'⟩ := make_same hW h h' hx offset
    rw [resolve, resolve, hmade, hmade']
    cases made with
    | error e => exact (ih hu hu' hrest).addError e
    | ok k => exact (ih hu hu' hrest).addToken k

end Lexeme

/-- Tables that refuse the same texts of a line give it the same tokens and the same errors. -/
theorem tokenize_same {W : Set String} {r t t' : Interner hash} (hW : Set.InjOn hash W)
    (h : t.Agrees W r) (h' : t'.Agrees W r) {line : Line} (hline : ∀ u ∈ textsOf line, u ∈ W) :
    LexResult.Same W r (tokenize t line) (tokenize t' line) :=
  Lexeme.resolve_same hW h h' _ hline

end ScriptFront
