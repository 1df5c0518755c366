import ScriptFront.Proofs.Preprocess.Blocks
import ScriptFront.Proofs.Preprocess.Findings
import Mathlib

/-! Closed text does not see the blocks around it. A pass over it runs on top of any active pass as it
runs alone, so an included file is processed as if its lines stood in the including one. -/
namespace ScriptFront.FilePass

variable {hash : NameHash} {p q r : FilePass} {s s' : Symbols hash} {index : Nat}

/-- The pass `q` with its blocks inside of those of `p` and its findings after those of `p`. -/
def onTopOf (q p : FilePass) : FilePass where
  blocks := q.blocks ++ p.blocks
  depth := { p.depth with depth := p.depth.depth + q.depth.depth }
  openComment := q.openComment
  report := p.report ++ q.report

theorem isActive_onTopOf (ha : p.isActive = true) : (q.onTopOf p).isActive = q.isActive := by
  unfold isActive onTopOf
  cases hb : q.blocks with
  | nil => exact ha
  | cons b bs => rfl

theorem addErrors_onTopOf (q p : FilePass) (es : List LineError) :
    (q.onTopOf p).addErrors es = (q.addErrors es).onTopOf p := by
  simp only [addErrors, onTopOf, LineReport.append_addErrors]

theorem evaluate_onTopOf (q p : FilePass) (s : Symbols hash) (index : Nat) (text : List Char) :
    (q.onTopOf p).evaluate s index text =
      let (v, q, s) := q.evaluate s index text
      (v, q.onTopOf p, s) := by
  unfold evaluate
  simp only
  split
  · split
    · rfl
    · exact congrArg (none, ·, _) (addErrors_onTopOf q p _)
  · exact congrArg (none, ·, _) (addErrors_onTopOf q p _)

theorem setValue_onTopOf (q p : FilePass) (s : Symbols hash) (index : Nat) (name : String)
    (value : Int64) : (q.onTopOf p).setValue s index name value =
      let (q, s) := q.setValue s index name value
      (q.onTopOf p, s) := by
  unfold setValue
  simp only
  split
  · rfl
  · split
    · rfl
    · simp only [onTopOf, LineReport.append_addWarning]

theorem define_onTopOf (q p : FilePass) (s : Symbols hash) (index : Nat) (body : List Char) :
    (q.onTopOf p).define s index body =
      let (q, s) := q.define s index body
      (q.onTopOf p, s) := by
  unfold define
  split
  · exact congrArg (·, s) (addErrors_onTopOf q p _)
  · exact setValue_onTopOf q p s index _ 1
  · rw [evaluate_onTopOf]
    rcases q.evaluate s index _ with ⟨v, q', s'⟩
    cases v with
    | none => rfl
    | some value => exact setValue_onTopOf q' p s' index _ value

/-- A block is opened alike, if both passes have room for it. -/
theorem openSkipped_onTopOf (hq : q.depth.depth < q.depth.limit)
    (hp : p.depth.depth + q.depth.depth < p.depth.limit) (index : Nat) :
    (q.onTopOf p).openSkipped index = (q.openSkipped index).onTopOf p := by
  unfold openSkipped DepthLimit.descend
  rw [if_pos hq, if_pos (show (q.onTopOf p).depth.depth < (q.onTopOf p).depth.limit from hp)]
  rfl

theorem openBlock_onTopOf (ha : p.isActive = true) (hq : q.depth.depth < q.depth.limit)
    (hp : p.depth.depth + q.depth.depth < p.depth.limit) (s : Symbols hash) (index : Nat)
    (condition : List Char) : (q.onTopOf p).openBlock s index condition =
      let (q, s) := q.openBlock s index condition
      (q.onTopOf p, s) := by
  have hskip := openSkipped_onTopOf hq hp index
  unfold openBlock DepthLimit.descend
  rw [isActive_onTopOf ha, if_pos hq,
    if_pos (show (q.onTopOf p).depth.depth < (q.onTopOf p).depth.limit from hp)]
  cases q.isActive with
  | true =>
    let deeper (t : FilePass) : FilePass :=
      { t with depth := { t.depth with depth := t.depth.depth + 1 } }
    have heval : (deeper (q.onTopOf p)).evaluate s index condition = _ :=
      evaluate_onTopOf (deeper q) p s index condition
    simp only [deeper] at heval
    simp only [heval]
    rfl
  | false => exact congrArg (·, s) hskip

theorem depth_openBlock (hq : q.depth.depth < q.depth.limit) (s : Symbols hash) (index : Nat)
    (condition : List Char) :
    (q.openBlock s index condition).1.depth.depth = q.depth.depth + 1 := by
  unfold openBlock openSkipped DepthLimit.descend
  rw [if_pos hq]
  cases q.isActive with
  | true =>
    simp only
    rw [evaluate_eq]
    rfl
  | false => rfl

theorem not_isClosed_openBlock (hq : ¬q.depth.depth < q.depth.limit) (s : Symbols hash)
    (index : Nat) (condition : List Char) :
    ¬(q.openBlock s index condition).1.report.IsClosed := by
  intro h
  unfold openBlock openSkipped DepthLimit.descend at h
  rw [if_neg hq] at h
  cases ha : q.isActive
  all_goals
    rw [ha] at h
    exact (h ⟨index, .nestingTooDeep, _⟩ List.mem_concat_self).2.2 rfl

theorem otherBranch_onTopOf (hr : (q.otherBranch index).report.IsClosed) :
    (q.onTopOf p).otherBranch index = (q.otherBranch index).onTopOf p := by
  cases hb : q.blocks with
  | nil =>
    -- there would have been no block to change
    rw [otherBranch, hb] at hr
    exact absurd rfl (hr _ List.mem_concat_self).1
  | cons b bs =>
    have hbp : (q.onTopOf p).blocks = b :: (bs ++ p.blocks) := by rw [onTopOf, hb, List.cons_append]
    rw [otherBranch, otherBranch, hb, hbp]
    simp only
    split
    · exact addErrors_onTopOf q p _
    · rfl

theorem closeBlock_onTopOf (hd : q.DepthCounts) (hr : (q.closeBlock index).report.IsClosed) :
    (q.onTopOf p).closeBlock index = (q.closeBlock index).onTopOf p := by
  cases hb : q.blocks with
  | nil =>
    rw [closeBlock, hb] at hr
    exact absurd rfl (hr _ List.mem_concat_self).2.1
  | cons b bs =>
    have hbp : (q.onTopOf p).blocks = b :: (bs ++ p.blocks) := by rw [onTopOf, hb, List.cons_append]
    rw [closeBlock, closeBlock, hb, hbp]
    cases hcount : b.counted with
    | false =>
      simp only [hcount]
      rfl
    | true =>
      have hpos : 0 < q.depth.depth := by
        rw [hd, hb, List.countP_cons_of_pos hcount]
        exact Nat.succ_pos _
      have hdepth : p.depth.depth + q.depth.depth - 1 = p.depth.depth + (q.depth.depth - 1) := by
        omega
      simp only [onTopOf, DepthLimit.ascend, hcount, if_true, hdepth]

theorem direct_onTopOf (ha : p.isActive = true) (hd : q.DepthCounts) (s : Symbols hash)
    (index : Nat) (d : Directive) (hr : (q.direct s index d).2.1.report.IsClosed)
    (hroom : p.depth.depth + (q.direct s index d).2.1.depth.depth ≤ p.depth.limit) :
    (q.onTopOf p).direct s index d =
      let (stays, r, s) := q.direct s index d
      (stays, r.onTopOf p, s) := by
  cases d with
  | if_ condition =>
    by_cases hq : q.depth.depth < q.depth.limit
    · have hdepth : (q.direct s index (.if_ condition)).2.1.depth.depth = q.depth.depth + 1 :=
        depth_openBlock hq s index condition
      have hp : p.depth.depth + q.depth.depth < p.depth.limit := by omega
      exact congrArg (false, ·) (openBlock_onTopOf ha hq hp s index condition)
    · exact absurd hr (not_isClosed_openBlock hq s index condition)
  | else_ => exact congrArg (false, ·, s) (otherBranch_onTopOf hr)
  | endif => exact congrArg (false, ·, s) (closeBlock_onTopOf hd hr)
  | define body =>
    simp only [direct, isActive_onTopOf ha]
    cases q.isActive with
    | true => exact congrArg (false, ·) (define_onTopOf q p s index body)
    | false => rfl
  | includeFile => simp only [direct, isActive_onTopOf ha]
  | unknown name =>
    simp only [direct, isActive_onTopOf ha]
    cases q.isActive with
    | true => exact congrArg (false, ·, s) (addErrors_onTopOf q p _)
    | false => rfl

theorem code_onTopOf (ha : p.isActive = true) (index : Nat) (line : Line) :
    (q.onTopOf p).code index line =
      let (line, q) := q.code index line
      (line, q.onTopOf p) := by
  unfold code
  rw [isActive_onTopOf ha]
  cases q.isActive with
  | true =>
    simp only [if_true]
    split <;> rfl
  | false => rfl

theorem directive_onTopOf (ha : p.isActive = true) (hd : q.DepthCounts) (s : Symbols hash)
    (index : Nat) (text : List Char) (hr : (q.directive s index text).2.1.report.IsClosed)
    (hroom : p.depth.depth + (q.directive s index text).2.1.depth.depth ≤ p.depth.limit) :
    (q.onTopOf p).directive s index text =
      let (stays, r, s) := q.directive s index text
      (stays, r.onTopOf p, s) := by
  unfold directive at *
  rw [isActive_onTopOf ha]
  cases hopen : (Text.Comment.statement text).isOpen && q.isActive with
  | true =>
    simp only [hopen, if_true] at *
    exact direct_onTopOf (q := { q with openComment := some index }) ha (hd.congr rfl rfl) s index _
      hr hroom
  | false =>
    simp only [hopen, Bool.false_eq_true, if_false] at *
    exact direct_onTopOf ha hd s index _ hr hroom

/-- A line does on top of another pass what it does alone. -/
theorem processLine_onTopOf (ha : p.isActive = true) (hd : q.DepthCounts) (s : Symbols hash)
    (index : Nat) (line : Line) (hr : (q.processLine s index line).2.1.report.IsClosed)
    (hroom : p.depth.depth + (q.processLine s index line).2.1.depth.depth ≤ p.depth.limit) :
    (q.onTopOf p).processLine s index line =
      let (line, r, s) := q.processLine s index line
      (line, r.onTopOf p, s) := by
  unfold processLine at *
  have hcomment : (q.onTopOf p).openComment = q.openComment := rfl
  rw [hcomment]
  cases hc : q.openComment with
  | some opened =>
    cases hend : Text.Comment.afterEnd? line with
    | none => rfl
    | some rest =>
      have hcode := code_onTopOf (q := { q with openComment := none }) ha index (' ' :: rest)
      simp only
      exact congrArg (fun r : Line × FilePass => (r.1, r.2, s)) hcode
  | none =>
    cases ht : Directive.start? line with
    | some text =>
      simp only [hc, ht] at *
      rw [directive_onTopOf ha hd s index text hr hroom]
    | none =>
      exact congrArg (fun r : Line × FilePass => (r.1, r.2, s)) (code_onTopOf ha index line)

/-- The greatest number of blocks that are open at once while lines are processed. -/
def nesting (p : FilePass) (s : Symbols hash) (index : Nat) : List Line → Nat
  | [] => p.blocks.length
  | line :: lines =>
    let (_, q, s) := p.processLine s index line
    max p.blocks.length (q.nesting s (index + 1) lines)

theorem length_blocks_le_nesting (p : FilePass) (s : Symbols hash) (index : Nat)
    (lines : List Line) : p.blocks.length ≤ p.nesting s index lines := by
  cases lines with
  | nil => exact Nat.le_refl _
  | cons line lines => exact Nat.le_max_left _ _

theorem DepthCounts.processFrom (h : p.DepthCounts) (s : Symbols hash) (index : Nat)
    (lines : List Line) : (p.processFrom s index lines).2.1.DepthCounts := by
  induction lines generalizing p s index with
  | nil => exact h
  | cons line lines ih => exact ih (h.processLine s index line) _ _

theorem DepthCounts.depth_le (h : p.DepthCounts) : p.depth.depth ≤ p.blocks.length := by
  rw [h]
  exact List.countP_le_length

theorem processFrom_onTopOf (ha : p.isActive = true) (hd : q.DepthCounts) (s : Symbols hash)
    (index : Nat) (lines : List Line) (hr : (q.processFrom s index lines).2.1.report.IsClosed)
    (hroom : p.depth.depth + q.nesting s index lines ≤ p.depth.limit) :
    (q.onTopOf p).processFrom s index lines =
      let (lines, r, s) := q.processFrom s index lines
      (lines, r.onTopOf p, s) := by
  induction lines generalizing q s index with
  | nil => rfl
  | cons line lines ih =>
    have hstep := processLine_onTopOf ha hd s index line
    have hd' := hd.processLine s index line
    rcases hline : q.processLine s index line with ⟨out, q', s'⟩
    simp only [processFrom, nesting, hline] at hstep hd' hr hroom ⊢
    have hclosed : q'.report.IsClosed :=
      hr.of_subset (errors_subset_processFrom q' s' (index + 1) lines)
    have hdepth : q'.depth.depth ≤ q'.nesting s' (index + 1) lines :=
      Nat.le_trans hd'.depth_le (length_blocks_le_nesting q' s' (index + 1) lines)
    rw [hstep hclosed (by omega)]
    simp only [ih hd' s' (index + 1) hr (by omega)]

/-- Closed lines, with room for their blocks, are processed in any active pass as in a pass of their
own, and leave the blocks and the depth of that pass as they were. -/
theorem processFrom_inlined (ha : p.isActive = true) (hc : p.openComment = none) (s : Symbols hash)
    (index : Nat) {lines out : List Line} (hrun : start.processFrom s index lines = (out, q, s'))
    (hblocks : q.blocks = []) (hcomment : q.openComment = none) (hclosed : q.report.IsClosed)
    (hroom : p.depth.depth + start.nesting s index lines ≤ p.depth.limit) :
    p.processFrom s index lines = (out, p.withReport (p.report ++ q.report), s') := by
  have hd : q.DepthCounts := by
    have h := DepthCounts.processFrom (rfl : start.DepthCounts) s index lines
    rwa [hrun] at h
  have hstart : start.onTopOf p = p := by
    simp only [onTopOf, start, LineReport.append_empty, ← hc]
    rfl
  have hend : q.onTopOf p = p.withReport (p.report ++ q.report) := by
    rw [onTopOf, hblocks, hcomment, hd, hblocks, withReport, hc]
    rfl
  have h := processFrom_onTopOf (q := start) ha rfl s index lines
  simp only [hrun, hstart, hend] at h
  exact h hclosed hroom

/-- A block, a comment over two lines and a fault inside of an open block. -/
theorem processFrom_inlined_block :
    let s : Symbols fun _ => 0 := ⟨.empty, .empty⟩
    let p : FilePass := ⟨[⟨3, true, true, false, true⟩], ⟨1, 256⟩, none,
      ⟨[⟨4, .malformedDefine, "expected a name after #define"⟩], []⟩⟩
    let lines := ["#if A".toList, "x".toList, "#else".toList, "#define A /* b".toList,
      "#endif */ y".toList, "#endif".toList, "#z".toList]
    let out := [[], [], [], [], "  y".toList, [], []]
    let q : FilePass := ⟨[], ⟨0, 256⟩, none,
      ⟨[⟨11, .unknownDirective, "invalid preprocessor command `#z`"⟩], []⟩⟩
    let s' := (start.processFrom s 5 lines).2.2
    p.isActive = true ∧ p.openComment = none ∧ start.processFrom s 5 lines = (out, q, s') ∧
      q.report.IsClosed ∧ p.depth.depth + start.nesting s 5 lines ≤ p.depth.limit ∧
      p.processFrom s 5 lines = (out, p.withReport (p.report ++ q.report), s') := by
  intro s p lines out q s'
  have hout : (start.processFrom s 5 lines).1 = out := by cbv
  have hq : (start.processFrom s 5 lines).2.1 = q := by cbv
  have hrun : start.processFrom s 5 lines = (out, q, s') := by rw [← hout, ← hq]
  have hclosed : q.report.IsClosed := by
    unfold LineReport.IsClosed
    decide
  have hroom : p.depth.depth + start.nesting s 5 lines ≤ p.depth.limit := by
    have hdeep : start.nesting s 5 lines = 1 := by cbv
    rw [hdeep]
    decide
  exact ⟨rfl, rfl, hrun, hclosed, hroom,
    processFrom_inlined (p := p) rfl rfl s 5 hrun rfl rfl hclosed hroom⟩

end ScriptFront.FilePass
