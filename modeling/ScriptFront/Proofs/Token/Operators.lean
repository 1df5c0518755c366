import ScriptFront.Proofs.Operator.Longest
import ScriptFront.Proofs.Token.Spacing

/-! Runs of operators in a line. A run is cut into operators, the longest one first, up to a comment
or to its end. So no character of an operator is ever left without one. -/
namespace ScriptFront

namespace Operator

/-- Every character of an operator is an operator by itself. -/
theorem exists_spelling_eq {c : Char} (hc : CharClass.isOperator c = true) :
    ∃ op : Operator, op.spelling.toList = [c] := by
  have hall : "=+-*/%<>&|^!~?:;,()[]".toList.all fun d =>
      all.any fun op => op.spelling.toList == [d] := by decide
  have hany := List.all_eq_true.mp hall c (List.contains_iff_mem.mp hc)
  obtain ⟨op, _, hop⟩ := List.any_eq_true.mp hany
  exact ⟨op, beq_iff_eq.mp hop⟩

theorem exists_longest? {c : Char} (hc : CharClass.isOperator c = true) (s : List Char) :
    ∃ op rest, longest? (c :: s) = some (op, rest) := by
  rcases h : longest? (c :: s) with _ | ⟨op, rest⟩
  · obtain ⟨op, hop⟩ := exists_spelling_eq hc
    exact absurd ⟨s, by rw [hop]; rfl⟩ (longest?_eq_none_iff.mp h op)
  · exact ⟨op, rest, rfl⟩

/-- The text of operators one behind the other. -/
def spelled (ops : List Operator) : List Char := ops.flatMap fun op => op.spelling.toList

theorem spelled_cons (op : Operator) (ops : List Operator) :
    spelled (op :: ops) = op.spelling.toList ++ spelled ops := List.flatMap_cons

/-- How a run is cut into operators, and what is left of it: nothing, or a comment. -/
inductive Cuts : List Char → List Operator → List Char → Prop
  | done : Cuts [] [] []
  | comment (body : List Char) : Cuts ('/' :: '/' :: body) [] ('/' :: '/' :: body)
  | operator {run rest left : List Char} {op : Operator} {ops : List Operator}
      (hcomment : ∀ body, run ≠ '/' :: '/' :: body) (h : op.IsLongest run rest)
      (more : Cuts rest ops left) : Cuts run (op :: ops) left

theorem Cuts.eq_append {run left : List Char} {ops : List Operator} (h : Cuts run ops left) :
    run = spelled ops ++ left := by
  induction h with
  | done | comment body => rfl
  | operator _ h _ ih =>
    rw [h.eq_append, ih, spelled_cons, List.append_assoc]

theorem Cuts.left_cases {run left : List Char} {ops : List Operator} (h : Cuts run ops left) :
    left = [] ∨ ∃ body, left = '/' :: '/' :: body := by
  induction h with
  | done => exact .inl rfl
  | comment body => exact .inr ⟨body, rfl⟩
  | operator _ _ _ ih => exact ih

/-- The longest operator at the start of a run does not go beyond it, whatever follows the run. -/
theorem IsLongest.within {op : Operator} {run after rest : List Char}
    (hrun : ∀ c ∈ run, CharClass.isOperator c = true)
    (hafter : after.takeWhile CharClass.isOperator = [])
    (h : op.IsLongest (run ++ after) rest) :
    ∃ more, rest = more ++ after ∧ op.IsLongest run more := by
  have htake : (run ++ after).takeWhile CharClass.isOperator = run := by
    rw [List.takeWhile_append_of_pos hrun, hafter, List.append_nil]
  have hprefix : op.spelling.toList <+: run := by
    rw [← htake, h.eq_append, List.takeWhile_append_of_pos (isOperator_of_mem_spelling op)]
    exact List.prefix_append _ _
  obtain ⟨more, rfl⟩ := hprefix
  have hrest := h.eq_append
  rw [List.append_assoc] at hrest
  refine ⟨more, (List.append_cancel_left hrest).symm, rfl, fun other hother => ?_⟩
  exact h.le other (hother.trans (List.prefix_append _ _))

end Operator

namespace Lexeme

open Operator (Cuts spelled)

/-- Operators as parts of a line, one behind the other. -/
def operatorsAt (offset : Nat) : List Operator → List (Nat × Lexeme)
  | [] => []
  | op :: ops =>
    (offset, token (.operator op)) :: operatorsAt (offset + Text.byteSize op.spelling.toList) ops

theorem lexemes_operator {c : Char} {s rest : List Char} {op : Operator}
    (hc : CharClass.isOperator c = true) (hs : ∀ body, c :: s ≠ '/' :: '/' :: body)
    (h : Operator.longest? (c :: s) = some (op, rest)) (offset : Nat) :
    lexemes offset (c :: s) =
      (offset, token (.operator op)) ::
        lexemes (offset + Text.byteSize op.spelling.toList) rest := by
  have hnext : next c s = ⟨op.spelling.toList, some (token (.operator op)), rest⟩ := by
    rw [next_of_operator hc fun body hc hbody => hs body (by rw [hc, hbody]), h]
  rw [lexemes, hnext]

/-- A run that is no comment begins with an operator, and what is left of it is a run again. -/
theorem exists_lexemes_operator {c : Char} {run after : List Char}
    (hrun : ∀ d ∈ c :: run, CharClass.isOperator d = true)
    (hafter : after.takeWhile CharClass.isOperator = [])
    (hcomment : ∀ body, c :: run ≠ '/' :: '/' :: body) :
    ∃ (op : Operator) (more : List Char), op.IsLongest (c :: run) more ∧
      (∀ d ∈ more, CharClass.isOperator d = true) ∧ more.length < (c :: run).length ∧
      ∀ offset, lexemes offset (c :: (run ++ after)) =
        (offset, token (.operator op)) ::
          lexemes (offset + Text.byteSize op.spelling.toList) (more ++ after) := by
  -- a comment does not begin with the last character of a run
  have hline : ∀ body, c :: (run ++ after) ≠ '/' :: '/' :: body := by
    intro body hbody
    rcases run with _ | ⟨d, run⟩
    · obtain ⟨_, rfl⟩ := List.cons.inj hbody
      cases hafter
    · cases hbody
      exact hcomment run rfl
  have hc := hrun c List.mem_cons_self
  obtain ⟨op, rest, hop⟩ := Operator.exists_longest? hc (run ++ after)
  obtain ⟨more, rfl, hlongest⟩ := (Operator.isLongest_of_longest? hop).within hrun hafter
  have hmore : ∀ d ∈ more, CharClass.isOperator d = true := by
    rw [hlongest.eq_append] at hrun
    exact fun d hd => hrun d (List.mem_append_right _ hd)
  have hless : more.length < (c :: run).length := by
    rw [hlongest.eq_append, List.length_append]
    have hne := List.length_pos_iff.mpr op.spelling_ne_nil
    omega
  exact ⟨op, more, hlongest, hmore, hless, lexemes_operator hc hline hop⟩

/-- The parts of a text that begins with a run of operators. -/
theorem exists_cuts (offset : Nat) {run after : List Char}
    (hrun : ∀ c ∈ run, CharClass.isOperator c = true)
    (hafter : after.takeWhile CharClass.isOperator = []) :
    ∃ ops left, Cuts run ops left ∧
      lexemes offset (run ++ after) =
        operatorsAt offset ops ++
          lexemes (offset + Text.byteSize (spelled ops)) (left ++ after) := by
  induction hlength : run.length using Nat.strong_induction_on generalizing offset run with
  | _ n ih =>
    subst hlength
    rcases run with _ | ⟨c, run⟩
    · exact ⟨[], [], .done, rfl⟩
    by_cases hcomment : ∃ body, c :: run = '/' :: '/' :: body
    · obtain ⟨body, hbody⟩ := hcomment
      rw [hbody]
      exact ⟨[], _, .comment body, rfl⟩
    have hcomment : ∀ body, c :: run ≠ '/' :: '/' :: body := fun body h => hcomment ⟨body, h⟩
    obtain ⟨op, more, hlongest, hmore, hless, hop⟩ := exists_lexemes_operator hrun hafter hcomment
    obtain ⟨ops, left, hcuts, hparts⟩ :=
      ih more.length hless (offset + Text.byteSize op.spelling.toList) hmore rfl
    refine ⟨op :: ops, left, .operator hcomment hlongest hcuts, ?_⟩
    rw [List.cons_append, hop, hparts, operatorsAt, Operator.spelled_cons, Text.byteSize_append,
      Nat.add_assoc, List.cons_append]

/-- What a line is made of up to a place where one of its parts begins, and from there. -/
theorem exists_lexemes_of_mem_starts (offset : Nat) {s t : List Char} (ht : t ∈ starts s) :
    ∃ before earlier, s = before ++ t ∧
      lexemes offset s = earlier ++ lexemes (offset + Text.byteSize before) t := by
  fun_induction starts s generalizing offset with
  | case1 => cases ht
  | case2 c s ih =>
    rcases List.mem_cons.mp ht with rfl | ht
    · exact ⟨[], [], rfl, rfl⟩
    · obtain ⟨before, earlier, hbefore, hearlier⟩ :=
        ih (offset + Text.byteSize (next c s).raw) ht
      refine ⟨(next c s).raw ++ before, ((next c s).lexeme.map (offset, ·)).toList ++ earlier,
        ?_, ?_⟩
      · rw [← raw_append_rest_next, hbefore, List.append_assoc]
      · rw [Text.byteSize_append, ← Nat.add_assoc, List.append_assoc, ← hearlier, lexemes]
        cases (next c s).lexeme <;> rfl

theorem ofNumber_ne_unknownOperator (raw : List Char) (value : Except NumberError Number)
    (text : String) : ofNumber raw value ≠ error (.unknownOperator text) := by
  rcases value with (_ | _) | value <;> nofun

theorem ofWord_ne_unknownOperator (w text : String) :
    ofWord w ≠ error (.unknownOperator text) := by
  rcases ofWord_cases w with ⟨id, -, hw⟩ | ⟨word, hw⟩ | hw | ⟨value, hw⟩ | hw <;>
    rw [hw] <;> nofun

/-- No part of a line is left without an operator. -/
theorem next_ne_unknownOperator (c : Char) (s : List Char) (text : String) :
    (next c s).lexeme ≠ some (error (.unknownOperator text)) := by
  have hnext := isNext_next c s
  generalize next c s = step at hnext
  cases hnext with
  | noOperator hc hs h =>
    obtain ⟨op, rest, hop⟩ := Operator.exists_longest? hc s
    rw [h] at hop
    cases hop
  | number hc s => exact fun h => ofNumber_ne_unknownOperator _ _ text (Option.some.inj h)
  | word hc s => exact fun h => ofWord_ne_unknownOperator _ text (Option.some.inj h)
  | comment body =>
    intro h
    obtain ⟨pragma, hpragma⟩ := exists_pragma_of_ofLineComment? h
    cases hpragma
  | _ => nofun

variable {hash : NameHash}

/-- A part is at fault itself, or it is a name that the table refuses. -/
theorem make_error {names : Interner hash} {offset : Nat} {x : Lexeme} {e : LexError}
    (he : (x.make names offset).1 = .error e) :
    (∃ cause, x = error cause ∧ e = ⟨cause, offset⟩) ∨
      ∃ name, e = ⟨.nameCollision name, offset⟩ := by
  cases x with
  | token t => cases he
  | error cause =>
    cases he
    exact .inl ⟨cause, rfl, rfl⟩
  | stringLiteral text | label text | identifier text =>
    rw [make, enter] at he
    rcases hrun : names.intern text with collision | ⟨_, names'⟩ <;> rw [hrun] at he <;> cases he
    exact .inr ⟨collision.incoming, rfl⟩

/-- The faults of a line are those of its parts, but for the names that the table refuses. -/
theorem mem_errors_resolve {names : Interner hash} {xs : List (Nat × Lexeme)} {e : LexError}
    (he : e ∈ (resolve names xs).errors) :
    (e.offset, error e.cause) ∈ xs ∨ ∃ name, e.cause = .nameCollision name := by
  induction xs generalizing names with
  | nil => cases he
  | cons x xs ih =>
    obtain ⟨offset, x⟩ := x
    rw [resolve] at he
    rcases hmade : x.make names offset with ⟨fault | t, names'⟩ <;> rw [hmade] at he
    · rcases List.mem_cons.mp he with rfl | he
      · rcases make_error (congrArg Prod.fst hmade) with ⟨cause, rfl, rfl⟩ | ⟨name, rfl⟩
        · exact .inl List.mem_cons_self
        · exact .inr ⟨name, rfl⟩
      · exact (ih he).imp_left (List.mem_cons_of_mem _)
    · exact (ih he).imp_left (List.mem_cons_of_mem _)

theorem tokens_resolve_operatorsAt (names : Interner hash) (offset : Nat) (ops : List Operator) :
    (resolve names (operatorsAt offset ops)) = ⟨ops.map .operator, [], names⟩ := by
  induction ops generalizing offset with
  | nil => rfl
  | cons op ops ih =>
    rw [operatorsAt, resolve]
    exact congrArg (·.addToken (.operator op)) (ih _)

end Lexeme

open Operator (Cuts spelled)

variable {hash : NameHash} (names : Interner hash)

theorem code_ne_unknownOperator (line : Line) {e : LexError}
    (he : e ∈ (tokenize names line).errors) : e.cause.code ≠ .unknownOperator := by
  rcases Lexeme.mem_errors_resolve he with hpart | ⟨name, hname⟩
  · obtain ⟨c, s, hnext⟩ := Lexeme.exists_next_of_mem_lexemes hpart
    intro hcode
    rcases e with ⟨cause, offset⟩
    cases cause <;> cases hcode
    exact Lexeme.next_ne_unknownOperator c s _ hnext
  · rw [hname]
    nofun

/-- Operators that stand one behind the other in a line are tokens one behind the other. -/
theorem operators_infix_tokenize {line : Line} {earlier later : List (Nat × Lexeme)} {offset : Nat}
    {ops : List Operator} (h : lexemes 0 line = earlier ++ Lexeme.operatorsAt offset ops ++ later) :
    ops.map Token.operator <:+: (tokenize names line).tokens := by
  rw [tokenize, h, Lexeme.resolve_append, Lexeme.resolve_append,
    Lexeme.tokens_resolve_operatorsAt]
  exact ⟨_, _, rfl⟩

/-- For any bytes, the trie gives the place and the length of the longest spelling that they begin
with, if there is one; so the operator at the start of a text is the longest that the text begins
with. From any place where a part of a line begins, the run of operators is cut into tokens up to
its end or up to a comment in it. So a line has no fault for a want of operators. -/
theorem operators_split :
    (∀ s found, Operator.find? s = some found ↔
        OperatorTrie.IsLongest Operator.entries s found) ∧
      (∀ s, Operator.find? s = none ↔ ∀ w ∈ Operator.entries, ¬w <+: s) ∧
      (∀ s op rest, Operator.longest? s = some (op, rest) ↔ op.IsLongest s rest) ∧
      (∀ s, Operator.longest? s = none ↔ ∀ op : Operator, ¬op.spelling.toList <+: s) ∧
      ∀ line : Line,
        (∀ t ∈ Lexeme.starts line, ∃ before earlier ops left,
          line = before ++ t ∧
            Cuts (t.takeWhile CharClass.isOperator) ops left ∧
            t.takeWhile CharClass.isOperator = spelled ops ++ left ∧
            (left = [] ∨ ∃ body, left = '/' :: '/' :: body) ∧
            lexemes 0 line =
              earlier ++ Lexeme.operatorsAt (Text.byteSize before) ops ++
                lexemes (Text.byteSize before + Text.byteSize (spelled ops))
                  (left ++ t.dropWhile CharClass.isOperator) ∧
            ∀ {hash : NameHash} (names : Interner hash),
              ops.map Token.operator <:+: (tokenize names line).tokens) ∧
        ∀ {hash : NameHash} (names : Interner hash), ∀ e ∈ (tokenize names line).errors,
          e.cause.code ≠ .unknownOperator := by
  refine ⟨fun _ _ => Operator.find?_eq_some_iff, fun _ => Operator.find?_eq_none_iff,
    fun _ _ _ => Operator.longest?_eq_some_iff, fun _ => Operator.longest?_eq_none_iff, fun line =>
    ⟨fun t ht => ?_, fun names _ he => code_ne_unknownOperator names line he⟩⟩
  obtain ⟨before, earlier, hline, hearlier⟩ := Lexeme.exists_lexemes_of_mem_starts 0 ht
  have hrun : ∀ c ∈ t.takeWhile CharClass.isOperator, CharClass.isOperator c = true :=
    fun c hc => List.mem_takeWhile_imp hc
  have hafter : (t.dropWhile CharClass.isOperator).takeWhile CharClass.isOperator = [] :=
    List.takeWhile_eq_nil_iff.mpr (List.dropWhile_get_zero_not CharClass.isOperator t)
  obtain ⟨ops, left, hcuts, hops⟩ := Lexeme.exists_cuts (0 + Text.byteSize before) hrun hafter
  rw [List.takeWhile_append_dropWhile] at hops
  rw [hops, Nat.zero_add, ← List.append_assoc] at hearlier
  exact ⟨before, earlier, ops, left, hline, hcuts, hcuts.eq_append, hcuts.left_cases, hearlier,
    fun names => operators_infix_tokenize names hearlier⟩

/-- A comment ends a run, though its first characters are operators. The number that the line
begins with is a fault, but none of the runs is. -/
theorem operators_split_comment :
    let line := "1x+=-b<<=//# c".toList
    let t := "<<=//# c".toList
    let r := tokenize (.new : Interner .standard) line
    t ∈ Lexeme.starts line ∧
      (∃ ops left, Cuts "<<=//".toList ops left ∧ "<<=//".toList = spelled ops ++ left ∧
        ops.map Token.operator <:+: r.tokens) ∧
      r.tokens = [.operator .assignAdd, .operator .sub, .identifier "b", .operator .assignShl,
        .pragma "c"] ∧
      r.errors = [⟨.invalidNumber "1x", 0⟩] ∧
      ∀ e ∈ r.errors, e.cause.code ≠ .unknownOperator := by
  intro line t r
  have ht : t ∈ Lexeme.starts line := by decide +kernel
  obtain ⟨-, -, -, -, hsplit⟩ := operators_split
  obtain ⟨before, earlier, ops, left, -, hcuts, hspelled, -, -, htokens⟩ := (hsplit line).1 t ht
  exact ⟨ht, ⟨ops, left, hcuts, hspelled, htokens .new⟩, by decide +kernel, by decide +kernel,
    (hsplit line).2 .new⟩

end ScriptFront
