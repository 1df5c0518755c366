import ScriptFront.Proofs.Comment.Scanner
import ScriptFront.Proofs.Preprocess.Frame

/-! Without directives, preprocessing is the erasure of comments: line by line it gives what the
automaton over the whole text gives. -/
namespace ScriptFront

open Text.Comment (Scanner afterEnd? erase)

theorem Directive.start?_eq_none_iff {line : Line} :
    start? line = none ↔ (line.dropWhile Text.isIndent).head? ≠ some '#' := by
  unfold start?
  split
  · next s h => simp [h]
  · next h =>
    refine iff_of_true rfl fun hs => ?_
    obtain ⟨s, hs⟩ := List.head?_eq_some_iff.mp hs
    exact h s hs

namespace Text.Comment.Scanner

/-- After a line the state is that of the start of a line. -/
theorem atStart_scanLine (index : Nat) (st : Scanner) (line : Line) :
    atStart (st.scanLine index line).2.opened? = (st.scanLine index line).2 := by
  induction line generalizing st with
  | nil => cases st <;> rfl
  | cons c s ih => exact ih _

end Text.Comment.Scanner

namespace FilePass

variable {hash : NameHash} {p : FilePass}

theorem code_eq_scanLine (ha : p.isActive = true) (hc : p.openComment = none) (index : Nat)
    (line : Line) : p.code index line =
      let (line, st) := Scanner.code.scanLine index line
      (line, { p with openComment := st.opened? }) := by
  rw [Scanner.scanLine_code, code, ha, if_pos rfl]
  cases ho : (erase line).isOpen with
  | true =>
    simp only [ho]
    rfl
  | false =>
    simp only [ho]
    show (_, p) = (_, { p with openComment := none })
    rw [← hc]

/-- A line that is in a comment or is no directive line. -/
theorem processLine_eq_scanLine (ha : p.isActive = true) {line : Line}
    (hl : p.openComment = none → Directive.start? line = none) (s : Symbols hash) (index : Nat) :
    p.processLine s index line =
      let (line, st) := (Scanner.atStart p.openComment).scanLine index line
      (line, { p with openComment := st.opened? }, s) := by
  unfold processLine
  cases hc : p.openComment with
  | none =>
    simp only [hl hc, code_eq_scanLine ha hc]
    rfl
  | some opened =>
    show _ = (_, { p with openComment := ((Scanner.block opened).scanLine index line).2.opened? }, s)
    cases hend : afterEnd? line with
    | none =>
      simp only [Scanner.scanLine_block, Scanner.atStart, hend]
      show ([], p, s) = ([], { p with openComment := some opened }, s)
      rw [← hc]
    | some rest =>
      have hcode := code_eq_scanLine (p := { p with openComment := none }) ha rfl index (' ' :: rest)
      simp only [Scanner.scanLine_block, Scanner.atStart, hend, hcode]
      rfl

theorem processFrom_eq_scanLines (ha : p.isActive = true) (index : Nat) {lines : List Line}
    (hl : ∀ i (_ : i < lines.length),
      ((Scanner.atStart p.openComment).scanLines index (lines.take i)).2 = .code →
      Directive.start? lines[i] = none) (s : Symbols hash) :
    p.processFrom s index lines =
      let (lines, st) := (Scanner.atStart p.openComment).scanLines index lines
      (lines, { p with openComment := st.opened? }, s) := by
  induction lines generalizing p index with
  | nil =>
    show ([], p, s) = ([], { p with openComment := (Scanner.atStart p.openComment).opened? }, s)
    rw [Scanner.opened?_atStart]
  | cons line lines ih =>
    have hhead : p.openComment = none → Directive.start? line = none :=
      fun hc => hl 0 (Nat.succ_pos _) (by rw [hc]; rfl)
    have hline := processLine_eq_scanLine ha hhead s index
    have hstart := Scanner.atStart_scanLine index (.atStart p.openComment) line
    rcases hscan : (Scanner.atStart p.openComment).scanLine index line with ⟨line', st⟩
    rw [hscan] at hline hstart
    have hrest := ih (p := { p with openComment := st.opened? }) ha (index + 1)
      fun i hi hcode => hl (i + 1) (Nat.succ_lt_succ hi) (by
        simpa only [List.take_succ_cons, Scanner.scanLines, hscan, hstart] using hcode)
    simp only at hrest hstart
    rw [hstart] at hrest
    simp only [processFrom, hline, hrest, Scanner.scanLines, hscan]

/-- A text in which no line outside of a block comment is a directive line loses its comments and
nothing else, as the automaton tells, and is at fault only if it ends in a block comment. -/
theorem processLines_eq_scanLines (s : Symbols hash) {lines : List Line}
    (hl : ∀ i (_ : i < lines.length), (Scanner.code.scanLines 0 (lines.take i)).2 = .code →
      (lines[i].dropWhile Text.isIndent).head? ≠ some '#') :
    processLines s lines =
      let (lines, st) := Scanner.code.scanLines 0 lines
      let errors := st.opened?.toList.map fun opened =>
        ⟨opened, .unclosedComment, "block comment not closed before end of file"⟩
      (lines, ⟨errors, []⟩, s) := by
  have hrun := processFrom_eq_scanLines (p := start) rfl 0
    (fun i hi hcode => Directive.start?_eq_none_iff.mpr (hl i hi hcode)) s
  simp only [processLines, hrun]
  rfl

/-- Lines with a `/*/`, with a `*` and a `/` on two lines, and with marks in a literal. -/
def markedLines : List Line :=
  ["a /*/ #".toList, "# b *".toList, "/ */ \"/*\\\"\" // /*".toList, "c /* d".toList]

theorem processLines_eq_scanLines_marks :
    (∀ i (_ : i < markedLines.length),
      (Scanner.code.scanLines 0 (markedLines.take i)).2 = .code →
        (markedLines[i].dropWhile Text.isIndent).head? ≠ some '#') ∧
      processLines (⟨.empty, .empty⟩ : Symbols .standard) markedLines =
        (["a ".toList, [], "  \"/*\\\"\" // /*".toList, "c ".toList],
          ⟨[⟨3, .unclosedComment, "block comment not closed before end of file"⟩], []⟩,
          ⟨.empty, .empty⟩) := by
  have hl : ∀ i (_ : i < markedLines.length),
      (Scanner.code.scanLines 0 (markedLines.take i)).2 = .code →
        (markedLines[i].dropWhile Text.isIndent).head? ≠ some '#' := by decide
  exact ⟨hl, processLines_eq_scanLines _ hl⟩

end FilePass
end ScriptFront
