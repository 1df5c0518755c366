import ScriptFront.Proofs.Token.RoundTrip
import ScriptFront.Session

/-! The feature level that a line asks for. The text of the line alone tells it, whatever names are
known, and a line asks for one level at most. -/
namespace ScriptFront

namespace GlobalPragma

def request? : GlobalPragma → Option UInt64
  | featureLevel level => if level = 0 then none else some level

/-- What the text of a pragma asks for: the number in its parentheses. A text there that is no
number asks for nothing, and so does 0. -/
def requestOf? (text : List Char) : Option UInt64 :=
  match Text.after? "script-feature-level(".toList (Text.trim text) with
  | none => none
  | some rest =>
    if rest.getLast? = some ')' then
      match Integer.parse (Text.trim rest.dropLast) with
      | .ok n => if n = 0 then none else some n
      | .error _ => none
    else none

theorem request?_level (s : List Char) :
    (featureLevel (level s)).request? =
      match Integer.parse (Text.trim s) with
      | .ok n => if n = 0 then none else some n
      | .error _ => none := by
  unfold request? level
  rcases Integer.parse (Text.trim s) with e | n
  · rfl
  · rfl

theorem request?_ofText? (text : List Char) : (ofText? text).bind request? = requestOf? text := by
  unfold ofText? requestOf?
  rcases Text.after? "script-feature-level(".toList (Text.trim text) with _ | rest
  · rfl
  rcases List.eq_nil_or_concat rest with rfl | ⟨inner, c, rfl⟩
  · rfl
  simp only [List.concat_eq_append, List.getLast?_append, List.getLast?_singleton, Option.some_or,
    List.dropLast_concat, Option.bind_eq_bind, Option.bind_some, List.reverse_append,
    List.reverse_singleton, List.singleton_append]
  by_cases hc : c = ')'
  · subst hc
    rw [if_pos rfl, ← request?_level]
    simp only [List.reverse_reverse, Option.bind_some]
  · rw [if_neg (mt Option.some.inj hc)]
    split
    · next heq => exact absurd (List.cons.inj heq).1 hc
    · rfl

end GlobalPragma

def Token.request? : Token → Option UInt64
  | pragma text => GlobalPragma.requestOf? text.toList
  | _ => none

def Lexeme.request? (x : Lexeme) : Option UInt64 := x.token?.bind Token.request?

/-- The level that a line asks for. -/
def requestOfLine? (line : Line) : Option UInt64 :=
  (lexemes 0 line).findSome? fun p => p.2.request?

theorem filterMap_eq_toList_findSome? {α β : Type} {f : α → Option β} {xs : List α}
    (h : xs.Pairwise fun x _ => f x = none) : xs.filterMap f = (xs.findSome? f).toList := by
  induction h with
  | nil => rfl
  | @cons x xs hx _ ih =>
    rcases hfx : f x with _ | b
    · rw [List.filterMap_cons_none hfx, List.findSome?_cons, hfx, ih]
    · have hxs : xs = [] := by
        rw [List.eq_nil_iff_forall_not_mem]
        intro y hy
        rw [hx y hy] at hfx
        cases hfx
      rw [hxs, List.filterMap_cons_some hfx, List.findSome?_cons, hfx]
      rfl

variable {hash : NameHash}

/-- Texts that the table of names refuses ask for nothing. -/
theorem Lexeme.requests_resolve (names : Interner hash) (xs : List (Nat × Lexeme)) :
    (resolve names xs).tokens.filterMap Token.request? = xs.filterMap (·.2.request?) := by
  induction xs generalizing names with
  | nil => rfl
  | cons x xs ih =>
    obtain ⟨offset, x⟩ := x
    cases x with
    | token t =>
      show (t :: (resolve names xs).tokens).filterMap _ = _
      rw [List.filterMap_cons, List.filterMap_cons, ih]
      rfl
    | error cause => exact ih names
    | stringLiteral text | label text | identifier text =>
      rw [resolve, make, enter]
      rcases names.intern text with _ | ⟨_, names'⟩
      · exact ih names
      · exact ih names'

theorem requests_tokenize (names : Interner hash) (line : Line) :
    (tokenize names line).tokens.filterMap Token.request? = (requestOfLine? line).toList := by
  refine (Lexeme.requests_resolve names _).trans (filterMap_eq_toList_findSome? ?_)
  refine (Lexeme.pairwise_lexemes 0 line).imp fun {p _} hp => ?_
  obtain ⟨offset, x⟩ := p
  cases x with
  | token t =>
    cases t with
    | pragma text => exact absurd rfl (hp text)
    | _ => rfl
  | _ => rfl

/-- The pragmas among the tokens of a line ask for what the line asks for. -/
theorem requests_globalPragmas (ts : List Token) :
    ((Session.globalPragmas ts).map Prod.snd).filterMap GlobalPragma.request? =
      ts.filterMap Token.request? := by
  rw [Session.globalPragmas, List.filterMap_map, List.filterMap_filterMap]
  conv_rhs => rw [← List.zipIdx_map_fst 0 ts, List.filterMap_map]
  refine List.filterMap_congr fun p _ => ?_
  obtain ⟨t, i⟩ := p
  cases t with
  | pragma text =>
    have htext := GlobalPragma.request?_ofText? text.toList
    dsimp only [Function.comp_apply, Token.request?]
    rw [← htext]
    rcases GlobalPragma.ofText? text.toList with _ | g
    · rfl
    · rfl
  | _ => rfl

end ScriptFront
