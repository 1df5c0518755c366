import ScriptFront.Proofs.Interner.Knows
import ScriptFront.Proofs.Token.Display

/-! The tokens of a line as text, with a blank between any two, and back. Main statement: the text
gives the same tokens again, without a fault and without a new name. -/
namespace ScriptFront

variable {hash : NameHash}

namespace Interner

/-- The texts of the tokens are in the table. -/
def KnowsAll (t : Interner hash) (ts : List Token) : Prop :=
  ∀ k ∈ ts, ∀ text, k.lexeme.text? = some text → t.Knows text

end Interner

namespace Lexeme

/-! The tokens of a line come from its parts, in their order, and only the last part can be a
pragma. -/

theorem tokens_resolve_sublist (names : Interner hash) (xs : List (Nat × Lexeme)) :
    (resolve names xs).tokens.Sublist (xs.filterMap (·.2.token?)) := by
  induction xs generalizing names with
  | nil => exact .slnil
  | cons x xs ih =>
    obtain ⟨offset, x⟩ := x
    cases x with
    | token t => exact (ih names).cons_cons t
    | error cause => exact ih names
    | stringLiteral text | label text | identifier text =>
      rw [resolve, make, enter]
      rcases names.intern text with _ | ⟨_, names'⟩
      · exact (ih names).cons _
      · exact (ih names').cons_cons _

theorem rest_of_pragma {c : Char} {s : List Char} {text : String}
    (hx : (next c s).lexeme = some (token (.pragma text))) : (next c s).rest = [] := by
  have hnext := isNext_next c s
  generalize next c s = step at hx hnext
  cases hnext with
  | comment => rfl
  | number =>
    rcases hvalue : (Number.scan (c :: s)).value with (_ | _) | value <;>
      simp [hvalue, ofNumber] at hx
  | word =>
    rcases ofWord_cases (String.ofList (c :: (Number.spanIdentifier s).1)) with
      ⟨id, -, hw⟩ | ⟨word, hw⟩ | hw | ⟨value, hw⟩ | hw <;> rw [hw] at hx <;> cases hx
  | _ => cases hx

/-- Labels, literals and identifiers are parts of their own kinds. -/
theorem lexeme_of_next {c : Char} {s : List Char} {x : Lexeme} {t : Token}
    (hx : (next c s).lexeme = some x) (ht : x.token? = some t) : t.lexeme = x := by
  have hnext := isNext_next c s
  generalize next c s = step at hx hnext
  cases hnext with
  | number =>
    cases hx
    rcases hvalue : (Number.scan (c :: s)).value with (_ | _) | value <;>
      rw [hvalue] at ht <;> cases ht
    rfl
  | word =>
    cases hx
    rcases ofWord_cases (String.ofList (c :: (Number.spanIdentifier s).1)) with
      ⟨id, -, hw⟩ | ⟨word, hw⟩ | hw | ⟨value, hw⟩ | hw <;> rw [hw] at ht ⊢ <;> cases ht <;> rfl
  | comment body =>
    obtain ⟨text, rfl⟩ := exists_pragma_of_ofLineComment? hx
    cases ht
    rfl
  | blockBegin | blockEnd | literal | label | operator =>
    cases hx
    cases ht
    rfl
  | openLiteral | noLabel | noOperator =>
    cases hx
    cases ht
  | nothing => cases hx

theorem pairwise_lexemes (offset : Nat) (s : List Char) :
    (lexemes offset s).Pairwise fun p _ => ∀ text, p.2 ≠ token (.pragma text) := by
  fun_induction lexemes offset s with
  | case1 => exact .nil
  | case2 offset c s step rest x hx ih =>
    refine .cons (fun q hq text hpragma => ?_) ih
    have hrest : step.rest = [] := rest_of_pragma (hx.trans (congrArg some hpragma))
    simp only [rest, hrest, lexemes] at hq
    cases hq
  | case3 offset c s step rest hx ih => exact ih

/-- The texts of the tokens are in the table that is left, together with all that were there. -/
theorem knowsAll_resolve (names : Interner hash) {xs : List (Nat × Lexeme)}
    (hxs : ∀ p ∈ xs, ∀ t, p.2.token? = some t → t.lexeme = p.2) :
    (resolve names xs).names.KnowsAll (resolve names xs).tokens ∧
      ∀ u, names.Knows u → (resolve names xs).names.Knows u := by
  induction xs generalizing names with
  | nil => exact ⟨fun _ hk => absurd hk List.not_mem_nil, fun _ hu => hu⟩
  | cons x xs ih =>
    obtain ⟨hfirst, hothers⟩ := List.forall_mem_cons.mp hxs
    obtain ⟨offset, x⟩ := x
    cases x with
    | token t =>
      obtain ⟨hall, hkept⟩ := ih names hothers
      refine ⟨List.forall_mem_cons.mpr ⟨fun text htext => ?_, hall⟩, hkept⟩
      rw [hfirst t rfl] at htext
      cases htext
    | error cause => exact ih names hothers
    | stringLiteral text | label text | identifier text =>
      rw [resolve, make, enter]
      rcases hrun : names.intern text with _ | ⟨_, names'⟩
      · exact ih names hothers
      · obtain ⟨hall, hkept⟩ := ih names' hothers
        obtain ⟨hnew, hold⟩ := Interner.knows_of_intern hrun
        refine ⟨List.forall_mem_cons.mpr ⟨fun u hu => ?_, hall⟩, fun u hu => hkept u (hold u hu)⟩
        cases hu
        exact hkept text hnew

/-- Parts whose texts are all in the table become their tokens, and the table stays as it is. -/
theorem resolve_of_knowsAll {names : Interner hash} {ts : List Token} (h : names.KnowsAll ts)
    {xs : List (Nat × Lexeme)} (hxs : xs.map Prod.snd = ts.map Token.lexeme) :
    resolve names xs = ⟨ts, [], names⟩ := by
  induction ts generalizing xs with
  | nil =>
    rw [List.map_nil, List.map_eq_nil_iff] at hxs
    rw [hxs, resolve]
  | cons t ts ih =>
    obtain ⟨⟨offset, x⟩, xs, rfl, hx, hrest⟩ := List.map_eq_cons_iff.mp hxs
    obtain ⟨hfirst, hothers⟩ := List.forall_mem_cons.mp h
    have hts := ih hothers hrest
    cases hx
    cases t with
    | stringLiteral text | label text | identifier text =>
      obtain ⟨name, hrun⟩ := Interner.intern_of_knows (hfirst text rfl)
      simp only [resolve, make, enter, hrun, hts]
      rfl
    | _ =>
      simp only [resolve, make, hts]
      rfl

/-- Only a string that is not closed and a comment take what comes after them. -/
theorem lexeme_of_takesLine {c : Char} {s : List Char} {x : Lexeme}
    (h : takesLine (c :: s) = true) (hx : (next c s).lexeme = some x) :
    x = error .unterminatedString ∨ ∃ text, x = token (.pragma text) := by
  unfold takesLine at h
  split at h
  · next s' heq =>
    cases heq
    rw [Option.isNone_iff_eq_none] at h
    have hnext : next '"' s = ⟨'"' :: s, some (error .unterminatedString), []⟩ := by
      unfold next
      rw [if_neg (by decide), if_neg (by decide), if_pos rfl, h]
    rw [hnext] at hx
    cases hx
    exact .inl rfl
  · next body heq =>
    cases heq
    exact .inr (exists_pragma_of_ofLineComment? hx)
  · cases h

end Lexeme

namespace Token

variable {t : Token}

theorem ReadsBack.lexemes_display (h : t.ReadsBack) (offset : Nat) :
    lexemes offset t.display.toList = [(offset, t.lexeme)] := by
  obtain ⟨c, s, hcs, hnext⟩ := h
  rw [hcs, lexemes, hnext]
  dsimp only
  rw [lexemes]

/-- All but a pragma leave the rest of a line as it is. -/
theorem ReadsBack.takesLine_eq_false (h : t.ReadsBack) (hkind : t.kind ≠ .pragma) :
    ∀ s ∈ Lexeme.starts t.display.toList, Lexeme.takesLine s = false := by
  obtain ⟨c, s, hcs, hnext⟩ := h
  rw [hcs, Lexeme.starts, hnext, Lexeme.starts]
  intro s' hs'
  rw [List.mem_singleton.mp hs', Bool.eq_false_iff]
  intro htakes
  rcases Lexeme.lexeme_of_takesLine htakes (congrArg LexStep.lexeme hnext) with hx | ⟨text, hx⟩
  · cases t <;> cases hx
  · cases t <;> cases hx
    exact hkind rfl

/-- The parts of a line of displayed tokens are those that the tokens are made of. -/
theorem map_lexemes_displayLine {ts : List Token} (hback : ∀ t ∈ ts, t.ReadsBack)
    (hlast : ts.Pairwise fun t _ => t.kind ≠ .pragma) (offset : Nat) :
    (lexemes offset (displayLine ts).toList).map Prod.snd = ts.map lexeme := by
  induction ts generalizing offset with
  | nil =>
    rw [displayLine, List.map_nil, String.intercalate_nil, String.toList_empty, lexemes]
    rfl
  | cons t ts ih =>
    obtain ⟨ht, hts⟩ := List.forall_mem_cons.mp hback
    rcases ts with _ | ⟨u, ts⟩
    · rw [displayLine, List.map_singleton, String.intercalate_singleton, ht.lexemes_display]
      rfl
    · obtain ⟨hkind, hrest⟩ := List.pairwise_cons.mp hlast
      have htakes := ht.takesLine_eq_false (hkind u List.mem_cons_self)
      have hline : (displayLine (t :: u :: ts)).toList =
          t.display.toList ++ ' ' :: (displayLine (u :: ts)).toList := by
        rw [displayLine, List.map_cons, List.map_cons, String.intercalate_cons_cons]
        simp [displayLine]
      rw [hline, Lexeme.lexemes_append_blank offset htakes, List.map_append,
        ht.lexemes_display, ih hts hrest]
      rfl

end Token

variable (names : Interner hash) (line : Line)

theorem exists_lexeme_of_mem_tokenize {t : Token} (ht : t ∈ (tokenize names line).tokens) :
    ∃ p ∈ lexemes 0 line, p.2.token? = some t :=
  List.mem_filterMap.mp ((Lexeme.tokens_resolve_sublist names _).subset ht)

/-- A pragma is the last token of its line. -/
theorem pairwise_tokenize :
    (tokenize names line).tokens.Pairwise fun t _ => t.kind ≠ .pragma := by
  refine List.Pairwise.sublist (Lexeme.tokens_resolve_sublist names _) ?_
  refine (Lexeme.pairwise_lexemes 0 line).filterMap _ fun p _ hp t ht _ _ hkind => ?_
  obtain ⟨offset, x⟩ := p
  cases t <;> cases hkind
  cases x <;> cases ht
  exact hp _ rfl

/-- The tokens of a line, written with a blank between any two, are tokens of a line again: the same
ones, without a fault and without a new name. -/
theorem tokenize_displayLine (h : ∀ t ∈ (tokenize names line).tokens, t.isPlain = true) :
    let r := tokenize names line
    tokenize r.names (Token.displayLine r.tokens).toList = ⟨r.tokens, [], r.names⟩ := by
  intro r
  have hback : ∀ t ∈ r.tokens, t.ReadsBack := by
    intro t ht
    obtain ⟨p, hp, hpt⟩ := exists_lexeme_of_mem_tokenize names line ht
    obtain ⟨c, s, hx⟩ := Lexeme.exists_next_of_mem_lexemes hp
    exact Token.readsBack_of_next hx hpt (h t ht)
  have hknows : r.names.KnowsAll r.tokens := by
    refine (Lexeme.knowsAll_resolve names fun p hp t ht => ?_).1
    obtain ⟨c, s, hx⟩ := Lexeme.exists_next_of_mem_lexemes hp
    exact Lexeme.lexeme_of_next hx ht
  exact Lexeme.resolve_of_knowsAll hknows
    (Token.map_lexemes_displayLine hback (pairwise_tokenize names line) 0)

/-- Without the blanks, `+` and `+=` would be `++` and `=`. The fault of the line is not shown, and
of a number and a type only the value is kept. -/
theorem tokenize_displayLine_fused :
    let line := "+ += \"a\\t'b\\\"\" @loop 0xFFFFFFFFFFFFFFFF bool true 3x //#  once ".toList
    let r := tokenize (.new : Interner .standard) line
    r.errors = [⟨.invalidNumber "3x", 50⟩] ∧
      Token.displayLine r.tokens =
        "+ += \"a\\t'b\\\"\" @loop 18446744073709551615 u8 1 //# once" ∧
      tokenize r.names (Token.displayLine r.tokens).toList = ⟨r.tokens, [], r.names⟩ := by
  intro line r
  have h : ∀ t ∈ r.tokens, t.isPlain = true := by decide +kernel
  exact ⟨by decide +kernel, by decide +kernel, tokenize_displayLine .new line h⟩

end ScriptFront
