import ScriptFront.Proofs.Text.Boundary
import ScriptFront.Proofs.Token.Operators

/-! Splitting a line by its bytes. The scan steps from byte to byte, also through the bytes of one
character, and takes the texts of tokens out of the line from one byte to another. It is refused where
that would cut a character. -/
namespace ScriptFront.ByteScan

open Text (octets byteSize slice?)
open Lexeme (token error)

/-- The parts that one step finds, and the byte where the next step begins, unless the rest of the line
is given up. -/
structure Step where
  parts : List (Nat × Lexeme)
  next? : Option Nat

variable (line : Line)

def bytesFrom (i : Nat) : List Char := (octets line).drop i

/-- How many bytes of an identifier there are from one byte on. -/
def identifierLength (i : Nat) : Nat :=
  ((bytesFrom line i).takeWhile CharClass.isIdentifier).length

/-- The opening quote is at `i`. -/
def literal? (i : Nat) : Option Step := do
  let body ← slice? line (i + 1) (byteSize line)
  match Text.Quoted.decode? (octets body) with
  | some (bytes, rest) =>
    let text ← Text.ofOctets? bytes
    let length := (octets body).length - rest.length
    some ⟨[(i, .stringLiteral text)], some (i + 1 + length)⟩
  | none => some ⟨[(i, error .unterminatedString)], none⟩

/-- The mark of the label is at `i`. -/
def label? (i : Nat) : Option Step :=
  let stop := i + 1 + identifierLength line (i + 1)
  if identifierLength line (i + 1) = 0 then some ⟨[(i, error .invalidLabel)], some stop⟩
  else do
    let name ← slice? line (i + 1) stop
    some ⟨[(i, .label (String.ofList name))], some stop⟩

def word? (i : Nat) : Option Step := do
  let stop := i + identifierLength line i
  let word ← slice? line i stop
  some ⟨[(i, Lexeme.ofWord (String.ofList word))], some stop⟩

/-- The text of a number is only taken to name it in a fault. -/
def number? (i : Nat) : Option Step :=
  let scan := Number.scan (bytesFrom line i)
  let stop := i + max scan.raw.length 1
  match scan.value with
  | .ok value => some ⟨[(i, token (.constant value))], some stop⟩
  | .error e => do
    let raw ← slice? line i (i + scan.raw.length)
    some ⟨[(i, Lexeme.ofNumber raw (.error e))], some stop⟩

/-- What a comment is that has its text from `i` on. -/
def comment? (i : Nat) : Option (Option Lexeme) :=
  match bytesFrom line i with
  | '#' :: s =>
    (slice? line (i + 1 + (s.takeWhile CharClass.isBlank).length) (byteSize line)).map fun text =>
      match Text.trimEnd text with
      | [] => none
      | text => some (token (.pragma (String.ofList text)))
  | _ => some none

/-- Cuts a run of operators that ends at `stop`, of which `run` is left from `i` on. -/
def operators? (stop i : Nat) (run : List Char) : Option Step :=
  match run with
  | [] => some ⟨[], some stop⟩
  | '/' :: '/' :: _ => (comment? line (i + 2)).map fun x => ⟨x.toList.map (i, ·), none⟩
  | run =>
    match _h : Operator.longest? run with
    | some (op, rest) =>
      (operators? stop (i + op.spelling.toList.length) rest).map fun st =>
        { st with parts := (i, token (.operator op)) :: st.parts }
    | none =>
      (slice? line i stop).map fun text =>
        ⟨[(i, error (.unknownOperator (String.ofList text)))], some stop⟩
termination_by run.length
decreasing_by
  rw [Operator.eq_append_of_longest? _h, List.length_append]
  exact Nat.lt_add_of_pos_left (List.length_pos_iff.mpr op.spelling_ne_nil)

/-- One step at the byte `i`. A byte that nothing begins with is passed over. -/
def step? (i : Nat) : Option Step :=
  match bytesFrom line i with
  | [] => some ⟨[], none⟩
  | b :: s =>
    if b = '\x7b' then some ⟨[(i, token (.keyword .blockBegin))], some (i + 1)⟩
    else if b = '\x7d' then some ⟨[(i, token (.keyword .blockEnd))], some (i + 1)⟩
    else if b = '"' then literal? line i
    else if b = '@' then label? line i
    else if CharClass.isDigit b then number? line i
    else if CharClass.isLetter b || b == '_' then word? line i
    else
      match (b :: s).takeWhile CharClass.isOperator with
      | [] => some ⟨[], some (i + 1)⟩
      | c :: run => operators? line (i + (c :: run).length) i (c :: run)

variable {line} {i n : Nat} {st : Step}

theorem next?_operators? {stop : Nat} {run : List Char} (h : operators? line stop i run = some st)
    (hnext : st.next? = some n) : n = stop := by
  fun_induction operators? line stop i run generalizing st with
  | case1 i =>
    cases h
    exact (Option.some.inj hnext).symm
  | case2 i body =>
    obtain ⟨x, -, rfl⟩ := Option.map_eq_some_iff.mp h
    cases hnext
  | case3 i run _ _ op rest _ ih =>
    obtain ⟨more, hmore, rfl⟩ := Option.map_eq_some_iff.mp h
    exact ih hmore hnext
  | case4 i run _ _ _ =>
    obtain ⟨text, -, rfl⟩ := Option.map_eq_some_iff.mp h
    exact (Option.some.inj hnext).symm

theorem lt_of_literal? (h : literal? line i = some st) (hnext : st.next? = some n) : i < n := by
  obtain ⟨body, -, h⟩ := Option.bind_eq_some_iff.mp h
  split at h
  · obtain ⟨text, -, hstep⟩ := Option.bind_eq_some_iff.mp h
    cases hstep
    cases hnext
    omega
  · cases h
    cases hnext

theorem lt_of_label? (h : label? line i = some st) (hnext : st.next? = some n) : i < n := by
  rw [label?] at h
  split_ifs at h
  · cases h
    cases hnext
    omega
  · obtain ⟨name, -, hstep⟩ := Option.bind_eq_some_iff.mp h
    cases hstep
    cases hnext
    omega

theorem lt_of_number? (h : number? line i = some st) (hnext : st.next? = some n) : i < n := by
  rw [number?] at h
  split at h
  · cases h
    cases hnext
    omega
  · obtain ⟨raw, -, hstep⟩ := Option.bind_eq_some_iff.mp h
    cases hstep
    cases hnext
    omega

theorem isIdentifier_of_word {c : Char} (h : (CharClass.isLetter c || c == '_') = true) :
    CharClass.isIdentifier c = true := by
  rcases Bool.or_eq_true_iff.mp h with h | h
  · rw [CharClass.isIdentifier, Char.isAlphanum, show c.isAlpha = true from h]
    rfl
  · rw [beq_iff_eq.mp h]
    rfl

theorem lt_of_word? {b : Char} {s : List Char} (hbytes : bytesFrom line i = b :: s)
    (hb : (CharClass.isLetter b || b == '_') = true) (h : word? line i = some st)
    (hnext : st.next? = some n) : i < n := by
  obtain ⟨word, -, hstep⟩ := Option.bind_eq_some_iff.mp h
  cases hstep
  cases hnext
  rw [identifierLength, hbytes, List.takeWhile_cons_of_pos (isIdentifier_of_word hb),
    List.length_cons]
  omega

/-- Every step goes on. -/
theorem lt_of_step? (h : step? line i = some st) (hnext : st.next? = some n) : i < n := by
  rw [step?] at h
  split at h
  · cases h
    cases hnext
  · next b s hbytes =>
    split_ifs at h with hbegin hend hquote hmark hdigit hword
    · cases h
      cases hnext
      omega
    · cases h
      cases hnext
      omega
    · exact lt_of_literal? h hnext
    · exact lt_of_label? h hnext
    · exact lt_of_number? h hnext
    · exact lt_of_word? hbytes hword h hnext
    · split at h
      · cases h
        cases hnext
        omega
      · rw [next?_operators? h hnext, List.length_cons]
        omega

variable (line) in
/-- The steps from the byte `i` on, each with the byte where it begins. -/
def steps? (i : Nat) : Option (List (Nat × Step)) :=
  if i < byteSize line then
    match _hstep : step? line i with
    | none => none
    | some st =>
      match _hnext : st.next? with
      | none => some [(i, st)]
      | some n => (steps? n).map ((i, st) :: ·)
  else some []
termination_by byteSize line - i
decreasing_by
  have hlt := lt_of_step? _hstep _hnext
  omega

theorem steps?_last (hi : i < byteSize line) (hstep : step? line i = some st)
    (hnext : st.next? = none) : steps? line i = some [(i, st)] := by
  rw [steps?, if_pos hi]
  split
  · next h =>
    rw [hstep] at h
    cases h
  · next st' h =>
    obtain rfl : st = st' := Option.some.inj (hstep.symm.trans h)
    split
    · rfl
    · next n h =>
      rw [hnext] at h
      cases h

theorem steps?_more (hi : i < byteSize line) (hstep : step? line i = some st)
    (hnext : st.next? = some n) : steps? line i = (steps? line n).map ((i, st) :: ·) := by
  rw [steps?, if_pos hi]
  split
  · next h =>
    rw [hstep] at h
    cases h
  · next st' h =>
    obtain rfl : st = st' := Option.some.inj (hstep.symm.trans h)
    split
    · next h =>
      rw [hnext] at h
      cases h
    · next m h =>
      obtain rfl : n = m := Option.some.inj (hnext.symm.trans h)
      rfl

/-! What a step finds at the start of a part. -/

theorem bytesFrom_append (before s : List Char) :
    bytesFrom (before ++ s) (byteSize before) = octets s := Text.drop_octets before s

theorem slice?_to_end (before s : List Char) :
    slice? (before ++ s) (byteSize before) (byteSize (before ++ s)) = some s := by
  have h := Text.slice?_append before s []
  rwa [List.append_nil, ← Text.byteSize_append] at h

theorem identifierLength_append (before s : List Char) :
    identifierLength (before ++ s) (byteSize before) = byteSize (Number.spanIdentifier s).1 := by
  rw [identifierLength, bytesFrom_append,
    Text.takeWhile_octets CharClass.toNat_lt_of_isIdentifier, Number.spanIdentifier,
    Text.byteSize_of_ascii (Text.toNat_lt_of_mem_takeWhile CharClass.toNat_lt_of_isIdentifier)]

theorem lexemes_next {c : Char} {s raw rest : List Char} {x : Option Lexeme}
    (h : Lexeme.next c s = ⟨raw, x, rest⟩) (i : Nat) :
    lexemes i (c :: s) = x.toList.map (i, ·) ++ lexemes (i + byteSize raw) rest := by
  rw [lexemes, h]
  cases x <;> rfl

namespace Step

/-- The step at the byte `i` finds the parts of a text at the start of `s`, and the next step begins
behind it, or nothing is left. -/
def Takes (st : Step) (i : Nat) (s : List Char) : Prop :=
  ∃ taken rest, s = taken ++ rest ∧
    lexemes i s = st.parts ++ lexemes (i + byteSize taken) rest ∧
    (st.next? = some (i + byteSize taken) ∨ st.next? = none ∧ rest = [])

theorem takes_next {c : Char} {s raw rest : List Char} {x : Option Lexeme}
    (h : Lexeme.next c s = ⟨raw, x, rest⟩) (i : Nat) :
    Takes ⟨x.toList.map (i, ·), some (i + byteSize raw)⟩ i (c :: s) := by
  have happend := Lexeme.raw_append_rest_next c s
  rw [h] at happend
  exact ⟨raw, rest, happend.symm, lexemes_next h i, .inl rfl⟩

theorem takes_last {c : Char} {s : List Char} {x : Option Lexeme}
    (h : Lexeme.next c s = ⟨c :: s, x, []⟩) (i : Nat) :
    Takes ⟨x.toList.map (i, ·), none⟩ i (c :: s) :=
  ⟨c :: s, [], (List.append_nil _).symm, lexemes_next h i, .inr ⟨rfl, rfl⟩⟩

end Step

theorem exists_literal? (before s : List Char) :
    ∃ st, literal? (before ++ '"' :: s) (byteSize before) = some st ∧
      st.Takes (byteSize before) ('"' :: s) := by
  have hbody : slice? (before ++ '"' :: s) (byteSize before + 1) (byteSize (before ++ '"' :: s)) =
      some s := by
    have h := slice?_to_end (before ++ ['"']) s
    rwa [List.append_assoc, Text.byteSize_append] at h
  have hnext : Lexeme.next '"' s = match Text.Quoted.decode? s with
      | some (text, rest) =>
        ⟨'"' :: s.take (s.length - rest.length), some (.stringLiteral (String.ofList text)), rest⟩
      | none => ⟨'"' :: s, some (error .unterminatedString), []⟩ := rfl
  rw [literal?, hbody]
  simp only [Option.bind_eq_bind, Option.bind_some, Text.Quoted.decode?_octets]
  rcases hdecode : Text.Quoted.decode? s with _ | ⟨text, rest⟩ <;> rw [hdecode] at hnext
  · exact ⟨_, rfl, Step.takes_last hnext _⟩
  · obtain ⟨raw, rfl⟩ := Text.Quoted.suffix_of_decode? hdecode
    simp only [Option.map_some, Text.ofOctets?_octets, Option.bind_some]
    refine ⟨_, rfl, ?_⟩
    have htakes := Step.takes_next hnext (byteSize before)
    rw [List.length_append, Nat.add_sub_cancel, List.take_left] at htakes
    rw [Text.octets_append, List.length_append, Nat.add_sub_cancel, Text.length_octets,
      Nat.add_assoc]
    exact htakes

theorem exists_label? (before s : List Char) :
    ∃ st, label? (before ++ '@' :: s) (byteSize before) = some st ∧
      st.Takes (byteSize before) ('@' :: s) := by
  have hlength : identifierLength (before ++ '@' :: s) (byteSize before + 1) =
      byteSize (Number.spanIdentifier s).1 := by
    have h := identifierLength_append (before ++ ['@']) s
    rwa [List.append_assoc, Text.byteSize_append] at h
  have hspan : (Number.spanIdentifier s).1 ++ (Number.spanIdentifier s).2 = s :=
    List.takeWhile_append_dropWhile
  rw [label?, hlength]
  rcases hs : Number.spanIdentifier s with ⟨_ | ⟨d, name⟩, rest⟩ <;> rw [hs] at hspan
  · have hnext : Lexeme.next '@' s = ⟨['@'], some (error .invalidLabel), rest⟩ := by
      unfold Lexeme.next
      rw [hs]
      rfl
    exact ⟨_, if_pos rfl, Step.takes_next hnext _⟩
  · have hnext : Lexeme.next '@' s =
        ⟨'@' :: d :: name, some (.label (String.ofList (d :: name))), rest⟩ := by
      unfold Lexeme.next
      rw [hs]
      rfl
    have hname : slice? (before ++ '@' :: s) (byteSize before + 1)
        (byteSize before + 1 + byteSize (d :: name)) = some (d :: name) := by
      have h := Text.slice?_append (before ++ ['@']) (d :: name) rest
      rwa [hspan, List.append_assoc, Text.byteSize_append] at h
    have hne : byteSize (d :: name) ≠ 0 := (Text.byteSize_pos (List.cons_ne_nil d name)).ne'
    rw [if_neg hne, hname]
    refine ⟨_, rfl, ?_⟩
    rw [Nat.add_assoc]
    exact Step.takes_next hnext _

theorem exists_word? {c : Char} (hc : (CharClass.isLetter c || c == '_') = true)
    (before s : List Char) :
    ∃ st, word? (before ++ c :: s) (byteSize before) = some st ∧
      st.Takes (byteSize before) (c :: s) := by
  have hidentifier := isIdentifier_of_word hc
  have hfirst : (Number.spanIdentifier (c :: s)).1 = c :: (Number.spanIdentifier s).1 :=
    List.takeWhile_cons_of_pos hidentifier
  have hspan : (Number.spanIdentifier s).1 ++ (Number.spanIdentifier s).2 = s :=
    List.takeWhile_append_dropWhile
  have hword := Text.slice?_append before (c :: (Number.spanIdentifier s).1)
    (Number.spanIdentifier s).2
  rw [List.cons_append, hspan] at hword
  rw [word?, identifierLength_append, hfirst, hword]
  exact ⟨_, rfl, Step.takes_next (Lexeme.next_of_word hc s) _⟩

theorem exists_number? {c : Char} (hc : CharClass.isDigit c = true) (before s : List Char) :
    ∃ st, number? (before ++ c :: s) (byteSize before) = some st ∧
      st.Takes (byteSize before) (c :: s) := by
  have hnext := Lexeme.next_of_digit hc s
  have hsize : byteSize (Number.scan (c :: s)).raw = (Number.scan (c :: s)).raw.length :=
    Text.byteSize_of_ascii (Number.toNat_lt_of_mem_raw (c :: s))
  have hne : (Number.scan (c :: s)).raw ≠ [] := by
    have h := Lexeme.raw_next_ne_nil c s
    rwa [hnext] at h
  have hpos := List.length_pos_iff.mpr hne
  have hraw := Text.slice?_append before (Number.scan (c :: s)).raw (Number.scan (c :: s)).rest
  rw [Number.raw_append_rest_scan, hsize] at hraw
  have htakes := Step.takes_next hnext (byteSize before)
  rw [hsize] at htakes
  rw [number?, bytesFrom_append, Number.scan_octets]
  dsimp only
  rw [Nat.max_eq_left hpos]
  rcases hvalue : (Number.scan (c :: s)).value with e | value <;> rw [hvalue] at htakes
  · rw [hraw]
    exact ⟨_, rfl, htakes⟩
  · exact ⟨_, rfl, htakes⟩

theorem comment?_append (before body : List Char) :
    comment? (before ++ body) (byteSize before) = some (Lexeme.ofLineComment? body) := by
  rw [comment?, bytesFrom_append]
  by_cases hpragma : ∃ s, body = '#' :: s
  · obtain ⟨s, rfl⟩ := hpragma
    have hblanks : byteSize (s.takeWhile CharClass.isBlank) =
        (s.takeWhile CharClass.isBlank).length :=
      Text.byteSize_of_ascii (Text.toNat_lt_of_mem_takeWhile CharClass.toNat_lt_of_isBlank)
    have htext := slice?_to_end (before ++ '#' :: s.takeWhile CharClass.isBlank)
      (s.dropWhile CharClass.isBlank)
    rw [List.append_assoc, List.cons_append, List.takeWhile_append_dropWhile,
      Text.byteSize_append before, Text.byteSize_cons, hblanks, ← Nat.add_assoc,
      show '#'.utf8Size = 1 from rfl] at htext
    rw [Text.octets_cons, Text.octetsOf_of_ascii (by decide), List.singleton_append]
    simp only [Text.takeWhile_octets CharClass.toNat_lt_of_isBlank, htext, Option.map_some]
    rfl
  · have hnone : Lexeme.ofLineComment? body = none := by
      unfold Lexeme.ofLineComment?
      split
      · next s => exact absurd ⟨s, rfl⟩ hpragma
      · rfl
    rw [hnone]
    split
    · next s heq =>
      rcases body with _ | ⟨c, body⟩
      · cases heq
      · exact absurd heq (Text.octets_cons_ne (by decide) (fun hc => hpragma ⟨body, by rw [hc]⟩) _ _)
    · rfl

/-! Runs of operators. -/

theorem operators?_longest (line : Line) (stop i : Nat) {run rest : List Char} {op : Operator}
    (hcomment : ∀ body, run ≠ '/' :: '/' :: body) (h : Operator.longest? run = some (op, rest)) :
    operators? line stop i run =
      (operators? line stop (i + op.spelling.toList.length) rest).map fun st =>
        { st with parts := (i, token (.operator op)) :: st.parts } := by
  have hne : run ≠ [] := by
    rintro rfl
    cases h
  rw [operators?.eq_3 line stop i run hne hcomment]
  split
  · next op' rest' h' =>
    rw [h] at h'
    cases h'
    rfl
  · next h' =>
    rw [h] at h'
    cases h'

/-- A run is cut as the parts of the line are, and what follows it begins behind it. -/
theorem exists_operators? (before : List Char) {run after : List Char}
    (hrun : ∀ c ∈ run, CharClass.isOperator c = true)
    (hafter : after.takeWhile CharClass.isOperator = []) :
    ∃ st, operators? (before ++ (run ++ after)) (byteSize before + run.length) (byteSize before) run =
        some st ∧
      (st.next? = some (byteSize before + run.length) ∧
          lexemes (byteSize before) (run ++ after) =
            st.parts ++ lexemes (byteSize before + run.length) after ∨
        st.next? = none ∧ lexemes (byteSize before) (run ++ after) = st.parts) := by
  induction hlength : run.length using Nat.strong_induction_on generalizing before run with
  | _ n ih =>
    subst hlength
    rcases run with _ | ⟨c, run⟩
    · exact ⟨⟨[], some (byteSize before)⟩, by rw [operators?]; rfl, .inl ⟨rfl, rfl⟩⟩
    by_cases hcomment : ∃ body, c :: run = '/' :: '/' :: body
    · obtain ⟨body, hbody⟩ := hcomment
      rw [hbody]
      have htext := comment?_append (before ++ ['/', '/']) (body ++ after)
      rw [List.append_assoc, Text.byteSize_append] at htext
      refine ⟨_, by rw [operators?]; exact congrArg (Option.map _) htext, .inr ⟨rfl, ?_⟩⟩
      rw [List.cons_append, List.cons_append, lexemes_next (Lexeme.next_comment _), lexemes,
        List.append_nil]
    have hcomment : ∀ body, c :: run ≠ '/' :: '/' :: body := fun body h => hcomment ⟨body, h⟩
    obtain ⟨op, more, hlongest, hmore, hless, hop⟩ :=
      Lexeme.exists_lexemes_operator hrun hafter hcomment
    have hcut := hlongest.eq_append
    have hlength : (c :: run).length = op.spelling.toList.length + more.length := by
      rw [hcut, List.length_append]
    have hsize := Text.byteSize_of_ascii fun d hd =>
      CharClass.toNat_lt_of_isOperator d (op.isOperator_of_mem_spelling d hd)
    obtain ⟨st, hst, hrest⟩ := ih more.length hless (before ++ op.spelling.toList) hmore rfl
    rw [List.append_assoc, ← List.append_assoc op.spelling.toList, ← hcut, Text.byteSize_append,
      hsize, Nat.add_assoc, ← hlength] at hst
    rw [Text.byteSize_append, hsize, Nat.add_assoc, ← hlength] at hrest
    rw [operators?_longest _ _ _ hcomment (Operator.longest?_eq_some_iff.mpr hlongest), hst,
      List.cons_append, hop, hsize]
    refine ⟨_, rfl, hrest.imp ?_ ?_⟩
    · rintro ⟨hnext, hparts⟩
      exact ⟨hnext, congrArg _ hparts⟩
    · rintro ⟨hnext, hparts⟩
      exact ⟨hnext, congrArg _ hparts⟩

/-! A step at any byte. -/

/-- No part of a line begins with the character. -/
structure BeginsNothing (c : Char) : Prop where
  ne_blockBegin : c ≠ '\x7b'
  ne_blockEnd : c ≠ '\x7d'
  ne_quote : c ≠ '"'
  ne_mark : c ≠ '@'
  not_isDigit : ¬CharClass.isDigit c = true
  not_word : ¬(CharClass.isLetter c || c == '_') = true
  not_isOperator : ¬CharClass.isOperator c = true

theorem beginsNothing_of_le {c : Char} (h : 128 ≤ c.toNat) : BeginsNothing c :=
  have hne (d : Char) (hd : d.toNat < 128) : c ≠ d := fun hc => Nat.not_lt.mpr h (hc ▸ hd)
  { ne_blockBegin := hne _ (by decide)
    ne_blockEnd := hne _ (by decide)
    ne_quote := hne _ (by decide)
    ne_mark := hne _ (by decide)
    not_isDigit := fun hc => Nat.not_lt.mpr h (CharClass.toNat_lt_of_isDigit hc)
    not_word := fun hc =>
      Nat.not_lt.mpr h (CharClass.toNat_lt_of_isIdentifier c (isIdentifier_of_word hc))
    not_isOperator := fun hc => Nat.not_lt.mpr h (CharClass.toNat_lt_of_isOperator c hc) }

theorem BeginsNothing.next_eq {c : Char} (h : BeginsNothing c) (s : List Char) :
    Lexeme.next c s = ⟨[c], none, s⟩ := by
  unfold Lexeme.next
  rw [if_neg h.ne_blockBegin, if_neg h.ne_blockEnd, if_neg h.ne_quote, if_neg h.ne_mark,
    if_neg h.not_isDigit, if_neg h.not_word, if_neg h.not_isOperator]

section First

variable {line : Line} {i : Nat} {b : Char} {s : List Char} (hbytes : bytesFrom line i = b :: s)

include hbytes

theorem BeginsNothing.step?_eq (h : BeginsNothing b) : step? line i = some ⟨[], some (i + 1)⟩ := by
  rw [step?, hbytes]
  dsimp only
  rw [if_neg h.ne_blockBegin, if_neg h.ne_blockEnd, if_neg h.ne_quote, if_neg h.ne_mark,
    if_neg h.not_isDigit, if_neg h.not_word, List.takeWhile_cons_of_neg h.not_isOperator]

theorem step?_of_isOperator (h : CharClass.isOperator b = true) :
    step? line i = operators? line (i + ((b :: s).takeWhile CharClass.isOperator).length) i
      ((b :: s).takeWhile CharClass.isOperator) := by
  obtain ⟨hbegin, hend, hquote, hmark, hdigit, hword⟩ := Lexeme.separate_of_operator h
  rw [step?, hbytes]
  dsimp only
  rw [if_neg hbegin, if_neg hend, if_neg hquote, if_neg hmark, if_neg hdigit, if_neg hword,
    List.takeWhile_cons_of_pos h]

end First

/-- What is left of a run ends the step, or the line. -/
theorem exists_step?_of_isOperator {c : Char} (hc : CharClass.isOperator c = true)
    (before s : List Char) :
    ∃ st, step? (before ++ c :: s) (byteSize before) = some st ∧
      st.Takes (byteSize before) (c :: s) := by
  have hbytes : bytesFrom (before ++ c :: s) (byteSize before) = c :: octets s := by
    rw [bytesFrom_append, Text.octets_cons,
      Text.octetsOf_of_ascii (CharClass.toNat_lt_of_isOperator c hc), List.singleton_append]
  have htake : (c :: octets s).takeWhile CharClass.isOperator =
      (c :: s).takeWhile CharClass.isOperator := by
    rw [← hbytes, bytesFrom_append, Text.takeWhile_octets CharClass.toNat_lt_of_isOperator]
  have hsplit := List.takeWhile_append_dropWhile (p := CharClass.isOperator) (l := c :: s)
  have hsize := Text.byteSize_of_ascii
    (Text.toNat_lt_of_mem_takeWhile CharClass.toNat_lt_of_isOperator (s := c :: s))
  obtain ⟨st, hst, hrest⟩ := exists_operators? before
    (fun d hd => List.mem_takeWhile_imp hd)
    (List.takeWhile_eq_nil_iff.mpr (List.dropWhile_get_zero_not CharClass.isOperator (c :: s)))
  rw [hsplit] at hst hrest
  rw [step?_of_isOperator hbytes hc, htake]
  refine ⟨st, hst, ?_⟩
  rw [← hsize] at hrest
  rcases hrest with ⟨hnext, hparts⟩ | ⟨hnext, hparts⟩
  · exact ⟨_, _, hsplit.symm, hparts, .inl hnext⟩
  · refine ⟨c :: s, [], (List.append_nil _).symm, ?_, .inr ⟨hnext, rfl⟩⟩
    rw [hparts, lexemes, List.append_nil]

theorem exists_step? {c : Char} (hc : c.toNat < 128) (before s : List Char) :
    ∃ st, step? (before ++ c :: s) (byteSize before) = some st ∧
      st.Takes (byteSize before) (c :: s) := by
  by_cases hop : CharClass.isOperator c = true
  · exact exists_step?_of_isOperator hop before s
  have hbytes : bytesFrom (before ++ c :: s) (byteSize before) = c :: octets s := by
    rw [bytesFrom_append, Text.octets_cons, Text.octetsOf_of_ascii hc, List.singleton_append]
  by_cases hnothing : BeginsNothing c
  · have hsize : byteSize [c] = 1 := Text.byteSize_of_ascii (List.forall_mem_singleton.mpr hc)
    have htakes := Step.takes_next (hnothing.next_eq s) (byteSize before)
    rw [hsize] at htakes
    exact ⟨_, hnothing.step?_eq hbytes, htakes⟩
  rw [step?, hbytes]
  dsimp only
  split_ifs with hbegin hend hquote hmark hdigit hword
  · subst hbegin
    exact ⟨_, rfl, Step.takes_next rfl _⟩
  · subst hend
    exact ⟨_, rfl, Step.takes_next rfl _⟩
  · subst hquote
    exact exists_literal? before s
  · subst hmark
    exact exists_label? before s
  · exact exists_number? hdigit before s
  · exact exists_word? hword before s
  · exact absurd ⟨hbegin, hend, hquote, hmark, hdigit, hword, hop⟩ hnothing

/-- The byte `i` of `before ++ s` is the first one of `s`, or it is within the last character of
`before`, of which nothing is found any more. -/
def At (before s : List Char) (i : Nat) : Prop :=
  ∃ os, bytesFrom (before ++ s) i = os ++ octets s ∧ (∀ o ∈ os, 128 ≤ o.toNat) ∧
    i + os.length = byteSize before

theorem at_byteSize (before s : List Char) : At before s (byteSize before) :=
  ⟨[], bytesFrom_append before s, nofun, rfl⟩

theorem At.le {before s : List Char} {i : Nat} (h : At before s i) : i ≤ byteSize (before ++ s) := by
  obtain ⟨os, -, -, hi⟩ := h
  rw [Text.byteSize_append]
  omega

theorem bytesFrom_succ {line : Line} {i : Nat} {b : Char} {s : List Char}
    (h : bytesFrom line i = b :: s) : bytesFrom line (i + 1) = s := by
  rw [bytesFrom, ← List.tail_drop]
  exact congrArg List.tail h

/-- One step: its parts are the next ones of the line, and the scan is again at a character or
within one that is passed. -/
theorem At.exists_step? {before s : List Char} {i : Nat} (h : At before s i)
    (hi : i < byteSize (before ++ s)) :
    ∃ st, step? (before ++ s) i = some st ∧
      (st.next? = none ∧ lexemes (byteSize before) s = st.parts ∨
        ∃ taken rest n, s = taken ++ rest ∧ st.next? = some n ∧ At (before ++ taken) rest n ∧
          lexemes (byteSize before) s = st.parts ++ lexemes (byteSize (before ++ taken)) rest) := by
  obtain ⟨os, hbytes, hos, hsize⟩ := h
  rcases os with _ | ⟨o, os⟩
  · obtain rfl : i = byteSize before := hsize
    rcases s with _ | ⟨c, s⟩
    · rw [List.append_nil] at hi
      exact absurd hi (Nat.lt_irrefl _)
    by_cases hc : c.toNat < 128
    · obtain ⟨st, hst, taken, rest, hs, hparts, hnext⟩ := ByteScan.exists_step? hc before s
      rw [hs] at hst hparts ⊢
      rw [← Text.byteSize_append] at hparts hnext
      refine ⟨st, hst, ?_⟩
      rcases hnext with hnext | ⟨hnext, rfl⟩
      · exact .inr ⟨taken, rest, _, rfl, hnext, at_byteSize _ _, hparts⟩
      · rw [lexemes, List.append_nil st.parts] at hparts
        exact .inl ⟨hnext, hparts⟩
    · -- no part begins with the character, and its other bytes are passed by the next steps
      have hle : 128 ≤ c.toNat := Nat.le_of_not_lt hc
      obtain ⟨o, os, heq, ho, hos⟩ := Text.exists_octetsOf_of_le hle
      rw [List.nil_append, Text.octets_cons, heq, List.cons_append] at hbytes
      have hlength : byteSize [c] = os.length + 1 := by
        rw [← Text.length_octets, Text.octets_cons, heq]
        exact congrArg List.length (List.append_nil (o :: os))
      refine ⟨_, (beginsNothing_of_le ho).step?_eq hbytes,
        .inr ⟨[c], s, _, rfl, rfl, ⟨os, ?_, hos, ?_⟩, ?_⟩⟩
      · rw [List.append_assoc]
        exact bytesFrom_succ hbytes
      · rw [Text.byteSize_append, hlength]
        omega
      · rw [lexemes_next ((beginsNothing_of_le hle).next_eq s), Text.byteSize_append]
        rfl
  · refine ⟨_, (beginsNothing_of_le (hos o List.mem_cons_self)).step?_eq hbytes,
      .inr ⟨[], s, _, rfl, rfl, ⟨os, ?_, fun o ho => hos o (List.mem_cons_of_mem _ ho), ?_⟩, ?_⟩⟩
    · rw [List.append_nil]
      exact bytesFrom_succ hbytes
    · rw [List.append_nil, ← hsize, List.length_cons]
      omega
    · rw [List.append_nil]
      rfl

/-- A step begins in the line and goes on, but not beyond the line. -/
def Advances (line : Line) (x : Nat × Step) : Prop :=
  x.1 < byteSize line ∧ ∀ n, x.2.next? = some n → x.1 < n ∧ n ≤ byteSize line

/-- The steps from a byte on find the parts of the line from there on, one step after the other. -/
theorem At.exists_steps? {before s : List Char} {i : Nat} (h : At before s i) :
    ∃ steps, steps? (before ++ s) i = some steps ∧
      steps.flatMap (·.2.parts) = lexemes (byteSize before) s ∧
      ∀ x ∈ steps, Advances (before ++ s) x := by
  -- on what is left of the line, which every step makes shorter
  induction hleft : byteSize (before ++ s) - i using Nat.strong_induction_on
    generalizing before s i with
  | _ left ih =>
    subst hleft
    by_cases hi : i < byteSize (before ++ s)
    · obtain ⟨st, hst, ⟨hnext, hparts⟩ | ⟨taken, rest, n, rfl, hnext, hat, hparts⟩⟩ := h.exists_step? hi
      · refine ⟨[(i, st)], steps?_last hi hst hnext, ?_,
          List.forall_mem_singleton.mpr ⟨hi, fun n hn => ?_⟩⟩
        · rw [hparts, List.flatMap_singleton]
        · rw [hnext] at hn
          cases hn
      · have hlt := lt_of_step? hst hnext
        obtain ⟨steps, hsteps, hmore, hall⟩ := ih _ (by rw [List.append_assoc]; omega) hat rfl
        rw [List.append_assoc] at hsteps hall
        refine ⟨(i, st) :: steps, ?_, ?_, List.forall_mem_cons.mpr ⟨⟨hi, ?_⟩, hall⟩⟩
        · rw [steps?_more hi hst hnext, hsteps, Option.map_some]
        · rw [List.flatMap_cons, hmore, hparts]
        · intro m hm
          obtain rfl : m = n := Option.some.inj (hm.symm.trans hnext)
          have hle := hat.le
          rw [List.append_assoc] at hle
          exact ⟨hlt, hle⟩
    · obtain ⟨os, -, -, hsize⟩ := h
      rcases s with _ | ⟨c, s⟩
      · exact ⟨[], by rw [steps?, if_neg hi], by rw [lexemes]; rfl, nofun⟩
      · have hpos := Text.byteSize_pos (List.cons_ne_nil c s)
        rw [Text.byteSize_append] at hi
        omega

end ScriptFront.ByteScan
