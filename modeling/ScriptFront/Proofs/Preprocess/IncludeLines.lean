import ScriptFront.Proofs.Comment.Gap
import ScriptFront.Proofs.Preprocess.DirectiveComment
import ScriptFront.Script

/-! The include lines that preprocessing keeps, and the lines of its output that look like directives.
The pass reads a directive without its comments, an include line is read with them. -/
namespace ScriptFront

open Text.Comment (Stripped afterEnd? afterGap erase statement)

namespace Directive

/-- What follows the `#` of a directive line. -/
def afterMark (line : Line) : List Char := (line.dropWhile Text.isIndent).drop 1

theorem start?_eq_some_iff {line : Line} {text : List Char} :
    start? line = some text ↔
      text = '#' :: afterMark line ∧ (line.dropWhile Text.isIndent).head? = some '#' := by
  unfold start? afterMark
  split
  · next s hs => simp [hs, eq_comm]
  · next hs =>
    refine iff_of_false nofun fun ⟨_, hhead⟩ => ?_
    obtain ⟨s, hs'⟩ := List.head?_eq_some_iff.mp hhead
    exact hs s hs'

/-- The name of a directive is the word behind the comments that follow the `#`. -/
theorem ofStatement_eq_includeFile_iff (s : List Char) :
    ofStatement (statement ('#' :: s)).text = includeFile ↔
      (afterGap s).takeWhile CharClass.isIdentifier = "include".toList := by
  have hmark : (statement ('#' :: s)).text.drop 1 = (statement s).text := by
    rw [Text.Comment.statement_cons (by decide) (by decide)]
    rfl
  have hword : String.ofList ((afterGap s).takeWhile CharClass.isIdentifier) = "include" ↔
      (afterGap s).takeWhile CharClass.isIdentifier = "include".toList := by
    rw [← String.toList_inj, String.toList_ofList]
  unfold ofStatement
  simp only [hmark, Text.Comment.takeWhile_dropWhile_statement, ← hword]
  split <;> simp_all

end Directive

namespace Include

variable {line : Line}

/-- Where the word of a directive ends, the word `include` of an include line ends too. -/
theorem isIdentifier_of_continuesWord {c : Char} (h : continuesWord c = true) :
    CharClass.isIdentifier c = true := by
  simp only [continuesWord, Bool.or_eq_true] at h
  simp only [CharClass.isIdentifier, Bool.or_eq_true]
  exact .inl h

theorem after?_older_of_mark (hd : (line.dropWhile Text.isIndent).head? = some '#') :
    Text.after? "include ".toList line = none := by
  by_contra h
  obtain ⟨rest, hrest⟩ := Option.ne_none_iff_exists'.mp h
  rw [Text.after?_eq_some_iff.mp hrest] at hd
  cases hd

/-- A line with a mark is an include line if the word `include` follows the mark, with blanks but no
comment between them. -/
theorem isSome_ofLine?_iff (hd : (line.dropWhile Text.isIndent).head? = some '#') :
    (ofLine? line).isSome = true ↔
      ∃ rest, (Directive.afterMark line).dropWhile Text.isIndent = "include".toList ++ rest ∧
        rest.head?.any continuesWord = false := by
  obtain ⟨s, hs⟩ := List.head?_eq_some_iff.mp hd
  have hmark : Directive.afterMark line = s := by rw [Directive.afterMark, hs, List.drop_one, List.tail_cons]
  rw [ofLine?, after?_older_of_mark hd, hmark]
  simp only [Option.isSome_map, afterWord?, hs]
  constructor
  · intro h
    split at h
    · next rest hrest =>
      refine ⟨rest, Text.after?_eq_some_iff.mp hrest, ?_⟩
      by_contra hc
      simp [hc] at h
    · cases h
  · rintro ⟨rest, hrest, hc⟩
    rw [Text.after?_eq_some_iff.mpr hrest]
    simp [hc]

end Include

namespace FilePass

variable {hash : NameHash} {p : FilePass} {line : Line}

/-- The pass executes the line as an `#include` in a chosen branch. -/
def ExecutesInclude (p : FilePass) (line : Line) : Prop :=
  p.openComment = none ∧ p.isActive = true ∧
    ∃ text ∈ Directive.start? line, Directive.ofStatement (statement text).text = .includeFile

instance (p : FilePass) (line : Line) : Decidable (p.ExecutesInclude line) :=
  inferInstanceAs (Decidable (_ ∧ _ ∧ ∃ text, text ∈ Directive.start? line ∧ _))

namespace ExecutesInclude

/-- An include line stays as it is and defines nothing. -/
theorem processLine (h : p.ExecutesInclude line) (s : Symbols hash) (index : Nat) :
    ∃ c, p.processLine s index line = (line, { p with openComment := c }, s) := by
  obtain ⟨hc, ha, text, ht, hd⟩ := h
  have hactive (c : Option Nat) : ({ p with openComment := c } : FilePass).isActive = true := ha
  simp only [FilePass.processLine, hc, Option.mem_def.mp ht, directive, hd, direct]
  split
  · exact ⟨some index, by rw [if_pos (hactive _)]⟩
  · have hsame : { p with openComment := none } = p := by rw [← hc]
    exact ⟨none, by rw [hsame]⟩

theorem head?_eq (h : p.ExecutesInclude line) :
    (line.dropWhile Text.isIndent).head? = some '#' := by
  obtain ⟨-, -, text, ht, -⟩ := h
  exact (Directive.start?_eq_some_iff.mp ht).2

theorem takeWhile_eq (h : p.ExecutesInclude line) :
    (afterGap (Directive.afterMark line)).takeWhile CharClass.isIdentifier =
      "include".toList := by
  obtain ⟨-, -, text, ht, hd⟩ := h
  rw [(Directive.start?_eq_some_iff.mp ht).1] at hd
  exact (Directive.ofStatement_eq_includeFile_iff _).mp hd

/-- An include line that the pass keeps is read as one unless a block comment stands between its `#`
and its word. -/
theorem ofLine?_iff (h : p.ExecutesInclude line) (s : Symbols hash) (index : Nat) :
    let (kept, _, _) := p.processLine s index line
    kept = line ∧ ((Include.ofLine? kept).isSome = true ↔
      ¬['/', '*'] <+: (Directive.afterMark line).dropWhile Text.isIndent) := by
  obtain ⟨c, hline⟩ := h.processLine s index
  rw [hline]
  refine ⟨rfl, (Include.isSome_ofLine?_iff h.head?_eq).trans ?_⟩
  constructor
  · rintro ⟨rest, hrest, -⟩ ⟨more, hmore⟩
    rw [hrest] at hmore
    cases hmore
  · intro hgap
    have hword := h.takeWhile_eq
    rw [Text.Comment.afterGap_of_not_prefix hgap] at hword
    have hsplit := List.takeWhile_append_dropWhile (p := CharClass.isIdentifier)
      (l := (Directive.afterMark line).dropWhile Text.isIndent)
    rw [hword] at hsplit
    refine ⟨_, hsplit.symm, (Option.any_eq_false ..).mpr fun c hc => ?_⟩
    have hstop := List.head?_dropWhile_not CharClass.isIdentifier
      ((Directive.afterMark line).dropWhile Text.isIndent)
    simp only [hc] at hstop
    by_contra hcont
    rw [Include.isIdentifier_of_continuesWord (by simpa using hcont)] at hstop
    cases hstop

theorem readLine_of_ofLine?_eq_none (h : p.ExecutesInclude line) (hn : Include.ofLine? line = none)
    (follow : Include → IncludeSite → Script hash → Script hash) (file : SourceFile) (index : Nat)
    (s : Script hash) : (Script.readLine follow file index p s line).2 = s.pushLine line := by
  obtain ⟨c, hline⟩ := h.processLine s.symbols index
  simp only [Script.readLine, hline, hn]

/-- A comment behind the word hides nothing. -/
theorem ofLine?_iff_quoted :
    let s : Symbols fun _ => 0 := ⟨.empty, .empty⟩
    let line := "# include /* a */ \"b\"".toList
    start.ExecutesInclude line ∧
      let (kept, _, _) := start.processLine s 0 line
      kept = line ∧ ((Include.ofLine? kept).isSome = true ↔
        ¬['/', '*'] <+: (Directive.afterMark line).dropWhile Text.isIndent) := by
  intro s line
  have hline : start.ExecutesInclude line := by decide +kernel
  exact ⟨hline, hline.ofLine?_iff s 0⟩

end ExecutesInclude

/-- An include line with a comment before its word is executed, kept and then read as a line of code. -/
theorem readLine_lost_include :
    let s : Script fun _ => 0 := .start ⟨.empty, .empty⟩ 0
    let line := "#/* b */include \"c\"".toList
    start.ExecutesInclude line ∧ (start.processLine s.symbols 0 line).1 = line ∧
      Include.ofLine? line = none ∧
      ∀ follow file, (Script.readLine follow file 0 start s line).2 = s.pushLine line := by
  intro s line
  have hline : start.ExecutesInclude line := by decide +kernel
  have hnone : Include.ofLine? line = none := by decide +kernel
  refine ⟨hline, ?_, hnone, fun follow file => hline.readLine_of_ofLine?_eq_none hnone _ _ _ _⟩
  obtain ⟨c, hkept⟩ := hline.processLine s.symbols 0
  rw [hkept]

/-- The line is no directive line, but only blanks and block comments stand before a `#` in it, and the
last of the comments ends on it. -/
def MarkAfterComment (p : FilePass) (line : Line) : Prop :=
  match p.openComment with
  | some _ => ∃ rest ∈ afterEnd? line, (afterGap rest).head? = some '#'
  | none =>
    (line.dropWhile Text.isIndent).head? ≠ some '#' ∧ (afterGap line).head? = some '#'

/-- A line of code is empty or has lost its comments. -/
theorem code_of_mark {index : Nat} {q : FilePass} {out : Line} (h : p.code index line = (out, q))
    (hm : (out.dropWhile Text.isIndent).head? = some '#') :
    p.isActive = true ∧ (afterGap line).head? = some '#' ∧ ∃ c, q = { p with openComment := c } := by
  unfold code at h
  split at h
  · next ha =>
    cases h
    refine ⟨ha, (Text.Comment.head?_dropWhile_erase (by decide) line).mp hm, ?_⟩
    split
    · exact ⟨some index, rfl⟩
    · exact ⟨p.openComment, rfl⟩
  · cases h
    cases hm

/-- Only an `#include` in a chosen branch stays. -/
theorem direct_stays {d : Directive} {s : Symbols hash} {index : Nat}
    (h : (p.direct s index d).1 = true) : d = .includeFile ∧ p.isActive = true := by
  cases d with
  | includeFile => exact ⟨rfl, h⟩
  | _ => cases h

theorem executesInclude_of_stays {text : List Char} (hc : p.openComment = none)
    (ht : Directive.start? line = some text) {s : Symbols hash} {index : Nat}
    (h : (p.directive s index text).1 = true) : p.ExecutesInclude line := by
  obtain ⟨hd, ha⟩ := direct_stays h
  refine ⟨hc, ?_, text, ht, hd⟩
  split at ha
  · exact ha
  · exact ha

/-- What a line becomes begins with `#` only if the line is an include line that is executed, or if the
end of a comment on it brought the `#` to the start. In the latter case it is a line of code. -/
theorem processLine_of_mark {s s' : Symbols hash} {index : Nat} {q : FilePass} {out : Line}
    (h : p.processLine s index line = (out, q, s'))
    (hm : (out.dropWhile Text.isIndent).head? = some '#') :
    p.ExecutesInclude line ∧ out = line ∨
      p.isActive = true ∧ p.MarkAfterComment line ∧ s' = s ∧
        ∃ c, q = { p with openComment := c } := by
  unfold processLine at h
  split at h
  · next opened hopen =>
    split at h
    · cases h
      cases hm
    · next rest hend =>
      rcases hcode : ({ p with openComment := none } : FilePass).code index (' ' :: rest) with ⟨out', q'⟩
      rw [hcode] at h
      cases h
      obtain ⟨ha, hgap, c, hq⟩ := code_of_mark hcode hm
      rw [Text.Comment.afterGap_cons (by decide)] at hgap
      refine .inr ⟨ha, ?_, rfl, c, hq⟩
      rw [MarkAfterComment, hopen]
      exact ⟨rest, hend, hgap⟩
  · next hopen =>
    split at h
    · next text ht =>
      rcases hd : p.directive s index text with ⟨stays, q', s''⟩
      rw [hd] at h
      cases stays with
      | false =>
        cases h
        cases hm
      | true =>
        cases h
        exact .inl ⟨executesInclude_of_stays hopen ht (by rw [hd]), rfl⟩
    · next ht =>
      rcases hcode : p.code index line with ⟨out', q'⟩
      rw [hcode] at h
      cases h
      obtain ⟨ha, hgap, hq⟩ := code_of_mark hcode hm
      refine .inr ⟨ha, ?_, rfl, hq⟩
      rw [MarkAfterComment, hopen]
      exact ⟨Directive.start?_eq_none_iff.mp ht, hgap⟩

/-- A line of the output is made of the line of the input with its index. -/
theorem getElem?_processFrom (s : Symbols hash) (index : Nat) (lines : List Line) {i : Nat} {out : Line}
    (h : (p.processFrom s index lines).1[i]? = some out) :
    ∃ line, lines[i]? = some line ∧
      let (_, p, s) := p.processFrom s index (lines.take i)
      (p.processLine s (index + i) line).1 = out := by
  induction lines generalizing p s index i with
  | nil => cases h
  | cons line lines ih =>
    rcases hline : p.processLine s index line with ⟨out', q, s'⟩
    simp only [processFrom, hline] at h
    cases i with
    | zero =>
      cases h
      exact ⟨line, rfl, by simp only [List.take_zero, processFrom, Nat.add_zero, hline]⟩
    | succ i =>
      obtain ⟨line', hget, hout⟩ := ih s' (index + 1) h
      refine ⟨line', hget, ?_⟩
      have hindex : index + 1 + i = index + (i + 1) := by omega
      simpa only [List.take_succ_cons, processFrom, hline, hindex] using hout

/-- A line of the output begins with `#` only if it is an include line, executed and as it was, or if a
comment that ends on it went before the `#`. Then it was read as code. -/
theorem processLines_of_mark (s : Symbols hash) (lines : List Line) {i : Nat} {out : Line}
    (hout : (processLines s lines).1[i]? = some out)
    (hm : (out.dropWhile Text.isIndent).head? = some '#') :
    ∃ line, lines[i]? = some line ∧
      let (_, p, s₁) := start.processFrom s 0 (lines.take i)
      p.ExecutesInclude line ∧ out = line ∨
        p.isActive = true ∧ p.MarkAfterComment line ∧
          ∃ c, p.processLine s₁ i line = (out, { p with openComment := c }, s₁) := by
  obtain ⟨line, hget, hline⟩ := getElem?_processFrom s 0 lines hout
  refine ⟨line, hget, ?_⟩
  rcases hpass : start.processFrom s 0 (lines.take i) with ⟨before, p, s₁⟩
  rcases hrun : p.processLine s₁ i line with ⟨out', q, s₂⟩
  have hsame : out' = out := by simpa only [hpass, Nat.zero_add, hrun] using hline
  subst hsame
  rcases processLine_of_mark hrun hm with hinc | ⟨ha, hmark, rfl, c, rfl⟩
  · exact .inl hinc
  · exact .inr ⟨ha, hmark, c, hrun⟩

/-- The text of an open comment ends before a `#`. -/
theorem processLines_of_mark_closing :
    let s : Symbols fun _ => 0 := ⟨.empty, .empty⟩
    let lines := ["a /* b".toList, "c */#include \"d\"".toList]
    let out := " #include \"d\"".toList
    (processLines s lines).1[1]? = some out ∧ (out.dropWhile Text.isIndent).head? = some '#' ∧
      ∃ line, lines[1]? = some line ∧
        let (_, p, s₁) := start.processFrom s 0 (lines.take 1)
        p.ExecutesInclude line ∧ out = line ∨
          p.isActive = true ∧ p.MarkAfterComment line ∧
            ∃ c, p.processLine s₁ 1 line = (out, { p with openComment := c }, s₁) := by
  intro s lines out
  have hout : (processLines s lines).1[1]? = some out := by decide +kernel
  have hm : (out.dropWhile Text.isIndent).head? = some '#' := by decide
  exact ⟨hout, hm, processLines_of_mark s lines hout hm⟩

/-- Without the comment before it, what looks like a definition stays in the text and defines nothing. -/
theorem processLines_uncovered_mark :
    let s : Symbols fun _ => 0 := ⟨.empty, .empty⟩
    let line := "/* a */ #define A".toList
    let out := "  #define A".toList
    (processLines s [line]).1[0]? = some out ∧ (out.dropWhile Text.isIndent).head? = some '#' ∧
      out ≠ line ∧ ¬start.ExecutesInclude line := by
  intro s line out
  have hout : (processLines s [line]).1[0]? = some out := by decide +kernel
  exact ⟨hout, by decide, by decide, by decide +kernel⟩

end FilePass
end ScriptFront
