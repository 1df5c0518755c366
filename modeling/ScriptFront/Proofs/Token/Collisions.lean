import ScriptFront.Proofs.Interner.Register
import ScriptFront.Proofs.Token.RoundTrip
import ScriptFront.Proofs.Token.Safety

/-! What a line loses to the hashes of its names. Main statement: for every hash and whatever was
entered before, the line has the tokens that it would have if no two texts had one hash, but for
those whose text comes after another one with its hash, and for each of them there is one fault
more. -/
namespace ScriptFront

/-- The text of a token that is entered in the table of names. -/
def Token.text? (t : Token) : Option String := t.lexeme.text?

def Lexeme.fault? : Lexeme → Option LexCause
  | error cause => some cause
  | _ => none

/-- The tokens of the parts if each text can be entered, with the numbers of bytes before them. -/
def placedTokens (xs : List (Nat × Lexeme)) : List (Nat × Token) :=
  xs.filterMap fun p => p.2.token?.map fun t => (p.1, t)

/-- The faults of the parts themselves. -/
def placedFaults (xs : List (Nat × Lexeme)) : List LexError :=
  xs.filterMap fun p => p.2.fault?.map fun cause => ⟨cause, p.1⟩

/-- The fault that stands for a token whose text is refused. -/
def collision? (p : Nat × Token) : Option LexError :=
  p.2.text?.map fun text => ⟨.nameCollision text, p.1⟩

/-- The tokens that are left of `all` if the texts are entered before. A token is lost if another
text with its hash was entered before it, be it one of the texts or that of a token that is left.
-/
structure Keeps (hash : NameHash) (texts : List String) (all kept : List (Nat × Token)) : Prop where
  sublist : kept.Sublist all
  mem_iff : ∀ p ∈ all, p ∈ kept ↔ ∀ text, p.2.text? = some text →
    ∀ other, (other ∈ texts ∨ ∃ q ∈ kept, q.1 < p.1 ∧ q.2.text? = some other) →
      hash other = hash text → other = text

namespace Keeps

variable {hash : NameHash} {texts texts' : List String} {all kept kept' : List (Nat × Token)}
  {p : Nat × Token}

theorem nil : Keeps hash texts [] [] := ⟨.slnil, fun _ hp => absurd hp List.not_mem_nil⟩

theorem forall_lt (h : Keeps hash texts all kept) (hfirst : ∀ q ∈ all, p.1 < q.1) :
    ∀ q ∈ kept, p.1 < q.1 := fun q hq => hfirst q (h.sublist.subset hq)

/-- The text of a token that is left counts for the tokens behind it. -/
theorem cons_kept (hfirst : ∀ q ∈ all, p.1 < q.1)
    (hp : ∀ text, p.2.text? = some text → ∀ other ∈ texts, hash other = hash text → other = text)
    (htexts : ∀ u, u ∈ texts' ↔ u ∈ texts ∨ p.2.text? = some u)
    (h : Keeps hash texts' all kept) : Keeps hash texts (p :: all) (p :: kept) := by
  refine ⟨h.sublist.cons_cons p, fun q hq => ?_⟩
  rcases List.mem_cons.mp hq with rfl | hq
  · refine iff_of_true List.mem_cons_self fun text htext other hother => ?_
    rcases hother with hother | ⟨r, hr, hlt, -⟩
    · exact hp text htext other hother
    · rcases List.mem_cons.mp hr with rfl | hr
      · exact absurd hlt (Nat.lt_irrefl _)
      · have hbehind := h.forall_lt hfirst r hr
        omega
  · have hlt := hfirst q hq
    have hne : q ≠ p := fun heq => Nat.lt_irrefl _ (heq ▸ hlt)
    have hearlier (other : String) :
        (other ∈ texts ∨ ∃ r ∈ p :: kept, r.1 < q.1 ∧ r.2.text? = some other) ↔
          (other ∈ texts' ∨ ∃ r ∈ kept, r.1 < q.1 ∧ r.2.text? = some other) := by
      simp only [htexts, List.mem_cons, exists_eq_or_imp, hlt, true_and, or_assoc]
    rw [List.mem_cons, or_iff_right hne, h.mem_iff q hq]
    simp only [hearlier]

theorem cons_lost {text other : String} (hfirst : ∀ q ∈ all, p.1 < q.1)
    (htext : p.2.text? = some text) (hother : other ∈ texts) (hhash : hash other = hash text)
    (hne : other ≠ text) (h : Keeps hash texts all kept) : Keeps hash texts (p :: all) kept := by
  refine ⟨h.sublist.cons p, fun q hq => ?_⟩
  rcases List.mem_cons.mp hq with rfl | hq
  · apply iff_of_false
    · exact fun hkept => Nat.lt_irrefl _ (h.forall_lt hfirst q hkept)
    · exact fun hall => hne (hall text htext other (.inl hother) hhash)
  · exact h.mem_iff q hq

/-- Of each token it is told by those before it whether it is left. -/
theorem mem_congr (h : Keeps hash texts all kept) (h' : Keeps hash texts all kept') (hp : p ∈ all) :
    p ∈ kept' ↔ p ∈ kept := by
  induction hplace : p.1 using Nat.strong_induction_on generalizing p with
  | _ n ih =>
    have hearlier (other : String) :
        (∃ q ∈ kept', q.1 < p.1 ∧ q.2.text? = some other) ↔
          ∃ q ∈ kept, q.1 < p.1 ∧ q.2.text? = some other := by
      constructor
      · rintro ⟨q, hq, hqp, htext⟩
        have hsame := ih q.1 (by omega) (h'.sublist.subset hq) rfl
        exact ⟨q, hsame.mp hq, hqp, htext⟩
      · rintro ⟨q, hq, hqp, htext⟩
        have hsame := ih q.1 (by omega) (h.sublist.subset hq) rfl
        exact ⟨q, hsame.mpr hq, hqp, htext⟩
    rw [h.mem_iff p hp, h'.mem_iff p hp]
    simp only [hearlier]

/-- What is left is determined. -/
theorem unique (hall : all.Pairwise (·.1 < ·.1)) (h : Keeps hash texts all kept)
    (h' : Keeps hash texts all kept') : kept' = kept := by
  have hkept := hall.sublist h.sublist
  have hkept' := hall.sublist h'.sublist
  have hnodup {ps : List (Nat × Token)} (hps : ps.Pairwise (·.1 < ·.1)) : ps.Nodup :=
    hps.imp fun hlt heq => Nat.ne_of_lt hlt (congrArg Prod.fst heq)
  have hperm : kept'.Perm kept := by
    rw [List.perm_ext_iff_of_nodup (hnodup hkept') (hnodup hkept)]
    intro p
    constructor
    · intro hp
      exact (mem_congr h h' (h'.sublist.subset hp)).mp hp
    · intro hp
      exact (mem_congr h h' (h.sublist.subset hp)).mpr hp
  refine hperm.eq_of_pairwise (fun a b _ _ hab hba => ?_) hkept' hkept
  exact absurd hab (Nat.lt_asymm hba)

end Keeps

variable {hash : NameHash}

/-- What comes of parts with the tokens `all` and the faults `faults`: the tokens that are left, and
one fault for each that is lost. -/
structure LexResult.Keeping (r : LexResult hash) (texts : List String) (all : List (Nat × Token))
    (faults : List LexError) (kept : List (Nat × Token)) : Prop where
  keeps : Keeps hash texts all kept
  tokens : r.tokens = kept.map Prod.snd
  errors : r.errors.Perm (faults ++ (all.filter (· ∉ kept)).filterMap collision?)
  names : ∃ texts', r.names.Enters texts' ∧
    ∀ u, u ∈ texts' ↔ u ∈ texts ∨ ∃ p ∈ kept, p.2.text? = some u

namespace LexResult.Keeping

variable {r : LexResult hash} {texts texts' : List String} {all kept : List (Nat × Token)}
  {faults : List LexError} {offset : Nat} {token : Token}

theorem addFault (h : r.Keeping texts all faults kept) (e : LexError) :
    (r.addError e).Keeping texts all (e :: faults) kept :=
  ⟨h.keeps, h.tokens, h.errors.cons e, h.names⟩

theorem addToken (h : r.Keeping texts' all faults kept) (hfirst : ∀ q ∈ all, offset < q.1)
    (honly : ∀ text, token.text? = some text →
      ∀ other ∈ texts, hash other = hash text → other = text)
    (htexts : ∀ u, u ∈ texts' ↔ u ∈ texts ∨ token.text? = some u) :
    (r.addToken token).Keeping texts ((offset, token) :: all) faults ((offset, token) :: kept) := by
  have hlost : ((offset, token) :: all).filter (· ∉ (offset, token) :: kept) =
      all.filter (· ∉ kept) := by
    rw [List.filter_cons_of_neg (by simp)]
    refine List.filter_congr fun q hq => ?_
    have hne : q ≠ (offset, token) := fun heq => Nat.lt_irrefl _ (heq ▸ hfirst q hq)
    simp [hne]
  obtain ⟨texts'', hnames, hmem⟩ := h.names
  refine ⟨h.keeps.cons_kept hfirst honly htexts, congrArg (token :: ·) h.tokens, ?_, texts'',
    hnames, fun u => ?_⟩
  · rw [hlost]
    exact h.errors
  · simp only [hmem, htexts, List.mem_cons, exists_eq_or_imp, or_assoc]

theorem addCollision {text other : String} (h : r.Keeping texts all faults kept)
    (hfirst : ∀ q ∈ all, offset < q.1) (htext : token.text? = some text) (hother : other ∈ texts)
    (hhash : hash other = hash text) (hne : other ≠ text) :
    (r.addError ⟨.nameCollision text, offset⟩).Keeping texts ((offset, token) :: all) faults
      kept := by
  have hlost : (offset, token) ∉ kept := fun hkept =>
    Nat.lt_irrefl _ (h.keeps.forall_lt hfirst _ hkept)
  have hcollision : collision? (offset, token) = some ⟨.nameCollision text, offset⟩ := by
    rw [collision?, htext, Option.map_some]
  refine ⟨h.keeps.cons_lost hfirst htext hother hhash hne, h.tokens, ?_, h.names⟩
  rw [List.filter_cons_of_pos (by simpa using hlost), List.filterMap_cons_some hcollision]
  exact (h.errors.cons _).trans List.perm_middle.symm

end LexResult.Keeping

namespace Interner

/-- A text is refused because of another one with its hash, or it is among the texts afterwards. -/
theorem Enters.intern_cases {t : Interner hash} {texts : List String} (h : t.Enters texts)
    (text : String) :
    (∃ other ∈ texts, hash other = hash text ∧ other ≠ text ∧
      t.intern text = .error ⟨hash text, other, text⟩) ∨
    ((∀ other ∈ texts, hash other = hash text → other = text) ∧
      ∃ name t' texts', t.intern text = .ok (name, t') ∧ t'.Enters texts' ∧
        ∀ u, u ∈ texts' ↔ u ∈ texts ∨ u = text) := by
  obtain ⟨texts', hstep, h'⟩ := h.step (.intern text)
  rcases hrun : t.intern text with c | ⟨name, t'⟩
  · rw [answer, hrun] at hstep
    cases hstep with
    | refused hmem hne hhash => exact .inl ⟨_, hmem, hhash, hne, rfl⟩
  · rw [answer, hrun] at hstep h'
    have honly : ∀ other ∈ texts, hash other = hash text → other = text := by
      cases hstep with
      | known _ honly => exact honly
      | entered hnew => exact fun other hother heq => absurd heq (hnew other hother)
    refine .inr ⟨honly, name, t', texts', rfl, h', fun u => ?_⟩
    rw [hstep.mem_iff u]
    simp [eq_comm]

theorem internAll_eq_run (t : Interner hash) (words : List String) :
    t.internAll words = (t.run (words.map .intern)).2 := by
  induction words generalizing t with
  | nil => rfl
  | cons word words ih =>
    have hstep : ((t.intern word).toOption.map (·.2)).getD t = (t.answer (.intern word)).2 := by
      rw [answer]
      cases t.intern word <;> rfl
    rw [internAll, List.foldl_cons, hstep]
    exact ih _

theorem run_append (t : Interner hash) (calls more : List NameCall) :
    (t.run (calls ++ more)).2 = ((t.run calls).2.run more).2 := by
  induction calls generalizing t with
  | nil => rfl
  | cons call calls ih => exact ih _

/-- What a table has is told by the calls, whatever the hash. -/
theorem exists_enters_run (hash : NameHash) (calls : List NameCall) :
    ∃ answers texts, Register.Run hash [] (languageWords.map .intern ++ calls) answers texts ∧
      ((new : Interner hash).run calls).2.Enters texts := by
  have hempty : (empty : Interner hash).Enters [] := empty_enters
  obtain ⟨texts, hrun, h⟩ := hempty.run (languageWords.map .intern ++ calls)
  rw [run_append, ← internAll_eq_run] at h
  exact ⟨_, texts, hrun, h⟩

end Interner

namespace Lexeme

variable {t : Interner hash} {texts : List String} {all : List (Nat × Token)}
  {faults : List LexError}

/-- A part with a text becomes its token, unless the table refuses the text. -/
theorem resolve_enter_keeping (h : t.Enters texts) {offset : Nat} {x : Lexeme} {text : String}
    {token : Token} {xs : List (Nat × Lexeme)} (hx : x.make t offset = enter t offset text token)
    (htext : token.text? = some text) (hfirst : ∀ q ∈ all, offset < q.1)
    (hmore : ∀ (t' : Interner hash) texts', t'.Enters texts' →
      ∃ kept, (resolve t' xs).Keeping texts' all faults kept) :
    ∃ kept, (resolve t ((offset, x) :: xs)).Keeping texts ((offset, token) :: all) faults kept := by
  rcases h.intern_cases text with
    ⟨other, hother, hhash, hne, hrun⟩ | ⟨honly, name, t', texts', hrun, h', hmem⟩
  · obtain ⟨kept, hkept⟩ := hmore t texts h
    have hresult : resolve t ((offset, x) :: xs) =
        (resolve t xs).addError ⟨.nameCollision text, offset⟩ := by rw [resolve, hx, enter, hrun]
    rw [hresult]
    exact ⟨kept, hkept.addCollision hfirst htext hother hhash hne⟩
  · obtain ⟨kept, hkept⟩ := hmore t' texts' h'
    have hresult : resolve t ((offset, x) :: xs) = (resolve t' xs).addToken token := by
      rw [resolve, hx, enter, hrun]
    rw [hresult]
    refine ⟨(offset, token) :: kept, hkept.addToken hfirst (fun u hu => ?_) fun u => ?_⟩
    · obtain rfl : text = u := Option.some.inj (htext.symm.trans hu)
      exact honly
    · rw [hmem, htext, Option.some_inj, eq_comm]

theorem exists_mem_of_mem_placedTokens {xs : List (Nat × Lexeme)} {p : Nat × Token}
    (hp : p ∈ placedTokens xs) : ∃ x, (p.1, x) ∈ xs ∧ x.token? = some p.2 := by
  obtain ⟨⟨offset, x⟩, hx, hxp⟩ := List.mem_filterMap.mp hp
  obtain ⟨token, htoken, rfl⟩ := Option.map_eq_some_iff.mp hxp
  exact ⟨x, hx, htoken⟩

/-- The texts of parts are entered one after the other. -/
theorem resolve_keeping (h : t.Enters texts) {xs : List (Nat × Lexeme)}
    (hxs : xs.Pairwise (·.1 < ·.1))
    (hkinds : ∀ p ∈ xs, ∀ k, p.2.token? = some k → k.lexeme = p.2) :
    ∃ kept, (resolve t xs).Keeping texts (placedTokens xs) (placedFaults xs) kept := by
  induction xs generalizing t texts with
  | nil => exact ⟨[], .nil, rfl, .refl _, texts, h, fun u => by simp⟩
  | cons x xs ih =>
    obtain ⟨hbefore, hrest⟩ := List.pairwise_cons.mp hxs
    obtain ⟨hkind, hothers⟩ := List.forall_mem_cons.mp hkinds
    obtain ⟨offset, x⟩ := x
    have hfirst : ∀ q ∈ placedTokens xs, offset < q.1 := by
      intro q hq
      obtain ⟨y, hy, -⟩ := exists_mem_of_mem_placedTokens hq
      exact hbefore _ hy
    cases x with
    | token k =>
      have htext : k.text? = none := by rw [Token.text?, hkind k rfl, text?]
      obtain ⟨kept, hkept⟩ := ih h hrest hothers
      refine ⟨(offset, k) :: kept, hkept.addToken hfirst (fun u hu => ?_) fun u => ?_⟩
      · rw [htext] at hu
        cases hu
      · simp [htext]
    | error cause =>
      obtain ⟨kept, hkept⟩ := ih h hrest hothers
      exact ⟨kept, hkept.addFault _⟩
    | stringLiteral text | label text | identifier text =>
      exact resolve_enter_keeping h rfl rfl hfirst fun t' texts' h' => ih h' hrest hothers

theorem pairwise_placedTokens {xs : List (Nat × Lexeme)} (hxs : xs.Pairwise (·.1 < ·.1)) :
    (placedTokens xs).Pairwise (·.1 < ·.1) := by
  refine hxs.filterMap _ fun p q hlt p' hp q' hq => ?_
  obtain ⟨_, -, rfl⟩ := Option.map_eq_some_iff.mp hp
  obtain ⟨_, -, rfl⟩ := Option.map_eq_some_iff.mp hq
  exact hlt

theorem pairwise_placedFaults {xs : List (Nat × Lexeme)} (hxs : xs.Pairwise (·.1 < ·.1)) :
    (placedFaults xs).Pairwise (·.offset < ·.offset) := by
  refine hxs.filterMap _ fun p q hlt e he f hf => ?_
  obtain ⟨_, -, rfl⟩ := Option.map_eq_some_iff.mp he
  obtain ⟨_, -, rfl⟩ := Option.map_eq_some_iff.mp hf
  exact hlt

end Lexeme

variable {t : Interner hash} {texts : List String}

theorem tokenize_keeping (h : t.Enters texts) (line : Line) :
    ∃ kept, (tokenize t line).Keeping texts (placedTokens (lexemes 0 line))
      (placedFaults (lexemes 0 line)) kept := by
  refine Lexeme.resolve_keeping h (Lexeme.pairwise_offsets_lexemes 0 line) fun p hp k hk => ?_
  obtain ⟨c, s, hx⟩ := Lexeme.exists_next_of_mem_lexemes hp
  exact Lexeme.lexeme_of_next hx hk

theorem mem_textsOf {line : Line} {p : Nat × Token} (hp : p ∈ placedTokens (lexemes 0 line))
    {text : String} (htext : p.2.text? = some text) : text ∈ textsOf line := by
  obtain ⟨x, hx, hk⟩ := Lexeme.exists_mem_of_mem_placedTokens hp
  obtain ⟨c, s, hnext⟩ := Lexeme.exists_next_of_mem_lexemes hx
  rw [Token.text?, Lexeme.lexeme_of_next hnext hk] at htext
  exact List.mem_filterMap.mpr ⟨_, hx, htext⟩

/-- Where no two texts have one hash, the line has all its tokens and no faults but its own. -/
theorem tokenize_of_injOn (h : t.Enters texts) {line : Line}
    (hinj : Set.InjOn hash {u | u ∈ texts ∨ u ∈ textsOf line}) :
    (tokenize t line).tokens = (placedTokens (lexemes 0 line)).map Prod.snd ∧
      (tokenize t line).errors = placedFaults (lexemes 0 line) := by
  have horder := Lexeme.pairwise_offsets_lexemes 0 line
  obtain ⟨kept, hkept⟩ := tokenize_keeping h line
  have hall : Keeps hash texts (placedTokens (lexemes 0 line)) (placedTokens (lexemes 0 line)) := by
    refine ⟨.refl _, fun p hp => iff_of_true hp fun text htext other hother hhash => ?_⟩
    refine hinj ?_ (.inr (mem_textsOf hp htext)) hhash
    rcases hother with hother | ⟨q, hq, -, hqtext⟩
    · exact .inl hother
    · exact .inr (mem_textsOf hq hqtext)
  obtain rfl := hkept.keeps.unique (Lexeme.pairwise_placedTokens horder) hall
  refine ⟨hkept.tokens, ?_⟩
  have hperm := hkept.errors
  rw [List.filter_eq_nil_iff.mpr fun p hp => by simpa using hp, List.filterMap_nil,
    List.append_nil] at hperm
  refine hperm.eq_of_pairwise (fun e f _ _ hef hfe => absurd hef (Nat.lt_asymm hfe)) ?_
    (Lexeme.pairwise_placedFaults horder)
  exact List.pairwise_map.mp (pairwise_offsets_tokenize t line)

/-- For every hash, all calls before and each line: the tokens are those of the line but for the
ones whose text follows another text with its hash. For each of these there is a fault at its
place, between the faults of the line, which stand in their order. A table in which no two texts
have one hash gives all tokens and the faults of the line alone. -/
theorem tokenize_collisions (hash : NameHash) (calls : List NameCall) (line : Line) :
    let r := tokenize ((Interner.new : Interner hash).run calls).2 line
    let all := placedTokens (lexemes 0 line)
    let faults := placedFaults (lexemes 0 line)
    ∃ answers texts kept,
      Register.Run hash [] (Interner.languageWords.map .intern ++ calls) answers texts ∧
      r.Keeping texts all faults kept ∧ (∀ other, Keeps hash texts all other → other = kept) ∧
      (r.errors.map (·.offset)).Pairwise (· < ·) ∧
      ∀ (ideal : NameHash) (t : Interner ideal) words, t.Enters words →
        Set.InjOn ideal {u | u ∈ words ∨ u ∈ textsOf line} →
        (tokenize t line).tokens = all.map Prod.snd ∧ (tokenize t line).errors = faults := by
  intro r all faults
  obtain ⟨answers, texts, hrun, h⟩ := Interner.exists_enters_run hash calls
  obtain ⟨kept, hkept⟩ := tokenize_keeping h line
  refine ⟨answers, texts, kept, hrun, hkept, fun other hother => ?_,
    pairwise_offsets_tokenize _ line, fun ideal t words ht hinj => tokenize_of_injOn ht hinj⟩
  have horder := Lexeme.pairwise_placedTokens (Lexeme.pairwise_offsets_lexemes 0 line)
  exact hkept.keeps.unique horder hother

/-- The hash tells texts that are no words of the language apart by their lengths alone. `x` is
there before the line, and keeps out `y`; `ab` keeps out `cd`. -/
theorem tokenize_collisions_lengths :
    let hash : NameHash := fun s =>
      .ofNat (Interner.languageWords.idxOf s + if s ∈ Interner.languageWords then 0 else s.length)
    let line := "y ab + 1z cd \"x\" @ab".toList
    let r := tokenize ((Interner.new : Interner hash).run [.intern "x"]).2 line
    let ideal := tokenize (Interner.empty : Interner .standard) line
    r.tokens = [.identifier "ab", .operator .add, .stringLiteral "x", .label "ab"] ∧
      r.errors = [⟨.nameCollision "y", 0⟩, ⟨.invalidNumber "1z", 7⟩, ⟨.nameCollision "cd", 10⟩] ∧
      ideal.tokens = (placedTokens (lexemes 0 line)).map Prod.snd ∧
      ideal.errors = [⟨.invalidNumber "1z", 7⟩] ∧
      ∃ texts kept, r.Keeping texts (placedTokens (lexemes 0 line)) ideal.errors kept := by
  intro hash line r ideal
  obtain ⟨-, texts, kept, -, hkept, -, -, hideal⟩ :=
    tokenize_collisions hash [.intern "x"] line
  have hinj : Set.InjOn NameHash.standard {u | u ∈ ([] : List String) ∨ u ∈ textsOf line} := by
    have hall : ∀ u ∈ textsOf line, ∀ v ∈ textsOf line,
        NameHash.standard u = NameHash.standard v → u = v := by decide +kernel
    exact fun u hu v hv => hall u (hu.resolve_left List.not_mem_nil) v
      (hv.resolve_left List.not_mem_nil)
  obtain ⟨htokens, herrors⟩ := hideal .standard .empty [] Interner.empty_enters hinj
  refine ⟨by decide +kernel, by decide +kernel, htokens, by decide +kernel, texts, kept, ?_⟩
  exact herrors ▸ hkept

end ScriptFront
