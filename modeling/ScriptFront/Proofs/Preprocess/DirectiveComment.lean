import ScriptFront.Proofs.Preprocess.Erasure
import ScriptFront.Proofs.Preprocess.Reachable
import Mathlib

/-! A block comment that a directive line opens. The pass skips its text on the following lines exactly
if it was active before the directive, so `#else` and `#endif` lose a comment where they make it
active. -/
namespace ScriptFront

open Text.Comment (Scanner Stripped afterEnd? erase statement)

namespace Text.Comment

/-- Directive lines and lines of code agree on what leaves a block comment open. -/
theorem isOpen_statement (s : List Char) : (statement s).isOpen = (erase s).isOpen := by
  fun_induction statement s with
  | case1 => rw [erase]
  | case2 r h => rw [erase, h]
  | case3 r raw rest h ih =>
    rw [erase, h]
    exact ih
  | case4 r => rw [erase]
  | case5 r h => rw [erase, h]
  | case6 r rest h ih =>
    rw [erase, h]
    exact ih
  | case7 c r hq hl hb ih =>
    rw [erase]
    · exact ih
    all_goals assumption

theorem Scanner.scanLine_dropWhile_isIndent (index : Nat) (line : Line) :
    (Scanner.code.scanLine index (line.dropWhile isIndent)).2 =
      (Scanner.code.scanLine index line).2 := by
  induction line with
  | nil => rfl
  | cons c s ih =>
    by_cases hc : isIndent c
    · rw [List.dropWhile_cons_of_pos hc, ih]
      obtain rfl | rfl : c = ' ' ∨ c = '\t' := by simpa [isIndent] using hc
      all_goals rfl
    · rw [List.dropWhile_cons_of_neg hc]

end Text.Comment

namespace FilePass

variable {hash : NameHash} {p q : FilePass} {s : Symbols hash} {index : Nat}

theorem openComment_openBlock (p : FilePass) (s : Symbols hash) (index : Nat)
    (condition : List Char) : (p.openBlock s index condition).1.openComment = p.openComment := by
  unfold openBlock
  split
  · rw [evaluate_eq]
    rfl
  · unfold openSkipped
    split <;> rfl

theorem openComment_direct (p : FilePass) (s : Symbols hash) (index : Nat) (d : Directive) :
    (p.direct s index d).2.1.openComment = p.openComment := by
  cases d with
  | if_ condition => exact openComment_openBlock p s index condition
  | else_ =>
    show (p.otherBranch index).openComment = p.openComment
    unfold otherBranch
    split
    · rfl
    · split <;> rfl
  | endif =>
    show (p.closeBlock index).openComment = p.openComment
    unfold closeBlock
    split <;> rfl
  | define body =>
    show (if p.isActive then p.define s index body else (p, s)).1.openComment = p.openComment
    split
    · rw [define_eq]
      rfl
    · rfl
  | includeFile => rfl
  | unknown name =>
    show (if p.isActive then p.addError index _ _ else p).openComment = p.openComment
    split <;> rfl

/-- A directive line opens a comment only in a pass that was active before it. -/
theorem openComment_of_directive (hc : p.openComment = none) {line : Line}
    (hd : (line.dropWhile Text.isIndent).head? = some '#')
    (ho : (Scanner.code.scanLine index line).2 = .block index) (s : Symbols hash) :
    (p.processLine s index line).2.1.openComment = if p.isActive then some index else none := by
  obtain ⟨text, ht⟩ := List.head?_eq_some_iff.mp hd
  have hstart : Directive.start? line = some ('#' :: text) := by simp only [Directive.start?, ht]
  have hopen : (statement ('#' :: text)).isOpen = true := by
    rw [← Scanner.scanLine_dropWhile_isIndent, ht, Scanner.scanLine_code] at ho
    rw [Text.Comment.isOpen_statement]
    cases hopen : (erase ('#' :: text)).isOpen with
    | true => rfl
    | false =>
      rw [hopen] at ho
      cases ho
  simp only [processLine, hc, hstart, directive, hopen, Bool.true_and, openComment_direct]
  cases p.isActive with
  | true => rfl
  | false => exact hc

/-- The text of the lines from `index` on goes up to the first `*/` in them as if a blank stood for it:
nothing of it is kept, and no directive in it does anything. -/
def SkipsComment (q : FilePass) (s : Symbols hash) (index : Nat) : Prop :=
  ∀ inside closing rest, (∀ line ∈ inside, afterEnd? line = none) →
    afterEnd? closing = some rest →
    q.processFrom s index (inside ++ [closing]) =
      let (line, r) := { q with openComment := none }.code (index + inside.length) (' ' :: rest)
      (inside.map (fun _ => []) ++ [line], r, s)

theorem skipsComment_of_openComment {opened : Nat} (hq : q.openComment = some opened)
    (s : Symbols hash) (index : Nat) : q.SkipsComment s index := by
  intro inside closing rest hin hclose
  induction inside generalizing index with
  | nil =>
    simp only [List.nil_append, processFrom, processLine, hq, hclose]
    rfl
  | cons line inside ih =>
    have hline : q.processLine s index line = ([], q, s) := by
      simp only [processLine, hq, hin line List.mem_cons_self]
    have hindex : index + (line :: inside).length = index + 1 + inside.length := by
      rw [List.length_cons]
      omega
    have hrest := ih (index + 1) fun l hl => hin l (List.mem_cons_of_mem _ hl)
    rw [hindex]
    simp only [List.cons_append, processFrom, hline, hrest]
    rfl

theorem closeBlock_ne (q : FilePass) (index : Nat) : q.closeBlock index ≠ q := by
  intro h
  unfold closeBlock at h
  split at h
  · have hreport := congrArg (·.report.errors.length) h
    simp [addError, LineReport.addErrors] at hreport
  · next b bs hb =>
    have hblocks := congrArg (·.blocks.length) h
    simp [hb] at hblocks

/-- A pass without an open comment executes an `#endif` on the next line. -/
theorem not_skipsComment (hq : q.openComment = none) (s : Symbols hash) (index : Nat) :
    ¬q.SkipsComment s index := by
  intro h
  have hclosed : (q.closeBlock index).openComment = none := by
    rw [← hq]
    exact openComment_direct q s index .endif
  have hendif : q.processLine s index "#endif".toList = ([], q.closeBlock index, s) :=
    processLine_of_isDirective hq (d := .endif) (by decide +kernel) s index
  have hcode : IsCode "*/".toList := by decide +kernel
  have hend := processLine_of_isCode hclosed hcode s (index + 1)
  have hblank : (({ q with openComment := none } : FilePass).code (index + 1) [' ']).2 = q := by
    have hkept : ({ q with openComment := none } : FilePass) = q := by rw [← hq]
    rw [hkept, code]
    split
    · exact if_neg (by decide +kernel)
    · rfl
  have hrun := h ["#endif".toList] "*/".toList [] (by decide) (by decide)
  simp only [List.singleton_append, processFrom, hendif, hend] at hrun
  exact closeBlock_ne q index ((congrArg (·.2.1) hrun).trans hblank)

/-- The text of a comment that a directive line opens is skipped exactly if the pass was active before
that line, whether or not it is active after it. -/
theorem skipsComment_iff_isActive (hc : p.openComment = none) {line : Line}
    (hd : (line.dropWhile Text.isIndent).head? = some '#')
    (ho : (Scanner.code.scanLine index line).2 = .block index) (s : Symbols hash) :
    let (_, q, s') := p.processLine s index line
    q.SkipsComment s' (index + 1) ↔ p.isActive = true := by
  have hq := openComment_of_directive hc hd ho s
  show (p.processLine s index line).2.1.SkipsComment _ (index + 1) ↔ _
  cases ha : p.isActive with
  | true =>
    rw [ha] at hq
    exact iff_of_true (skipsComment_of_openComment hq _ _) rfl
  | false =>
    rw [ha] at hq
    exact iff_of_false (not_skipsComment hq _ _) Bool.false_ne_true

/-- The comment that a definition opens hides the directives on the next lines. -/
theorem skipsComment_iff_isActive_define :
    let s : Symbols fun _ => 0 := ⟨.empty, .empty⟩
    let line := "# define A /* b".toList
    start.openComment = none ∧ (line.dropWhile Text.isIndent).head? = some '#' ∧
      (Scanner.code.scanLine 0 line).2 = .block 0 ∧
      ((start.processLine s 0 line).2.1.SkipsComment (start.processLine s 0 line).2.2 1 ↔
        start.isActive = true) := by
  intro s line
  have hd : (line.dropWhile Text.isIndent).head? = some '#' := by decide
  have ho : (Scanner.code.scanLine 0 line).2 = .block 0 := by decide
  exact ⟨rfl, hd, ho, skipsComment_iff_isActive (p := start) rfl hd ho s⟩

/-- An `#else` that makes the pass active loses the comment that it opens. -/
theorem processLine_after_lost_comment :
    let s : Symbols fun _ => 0 := ⟨.empty, .empty⟩
    let (_, p, s₁) := start.processLine s 0 "#if 0".toList
    let (_, q, s₂) := p.processLine s₁ 1 "#else /* a".toList
    Reachable (fun _ => 0) p ∧ p.openComment = none ∧
      (Scanner.code.scanLine 1 "#else /* a".toList).2 = .block 1 ∧ q.isActive = true ∧
      (q.processLine s₂ 2 "b */ c".toList).1 = "b */ c".toList ∧ ¬q.SkipsComment s₂ 2 := by
  intro s
  rcases hif : start.processLine s 0 "#if 0".toList with ⟨line, p, s₁⟩
  have hp : p = ⟨[⟨0, true, false, false, true⟩], ⟨1, 256⟩, none, .empty⟩ := by
    have h : (start.processLine s 0 "#if 0".toList).2.1 =
        ⟨[⟨0, true, false, false, true⟩], ⟨1, 256⟩, none, .empty⟩ := by cbv
    rwa [hif] at h
  have hreach : Reachable (fun _ => 0) p := by
    have h := Reachable.start.processLine s 0 "#if 0".toList
    rwa [hif] at h
  have helse : p.processLine s₁ 1 "#else /* a".toList =
      ([], ⟨[⟨0, true, true, true, true⟩], ⟨1, 256⟩, none, .empty⟩, s₁) := by
    rw [hp]
    cbv
  simp only [helse]
  refine ⟨hreach, by rw [hp], by decide, rfl, ?_, not_skipsComment rfl _ _⟩
  cbv

end FilePass
end ScriptFront
