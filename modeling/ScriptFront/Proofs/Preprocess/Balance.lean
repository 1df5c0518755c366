import ScriptFront.Proofs.Preprocess.Findings
import ScriptFront.Proofs.Preprocess.OpenIfs

/-! Every `#if` of a file has its `#endif` or is found to have none, and so has every `#endif` its
`#if`. Main statement: what holds of the open blocks and of these faults after any lines, with any
definitions between them. -/
namespace ScriptFront

variable {hash : NameHash}

/-- Of an `#endif` without its `#if`, or of an `#if` without its `#endif`. -/
def ErrorCode.isUnbalanced (c : ErrorCode) : Bool := c = .endifWithoutIf || c = .unclosedIf

theorem ConditionError.isUnbalanced_code (e : ConditionError) : e.code.isUnbalanced = false := by
  cases e <;> rfl

theorem LexCause.isUnbalanced_code (c : LexCause) : c.code.isUnbalanced = false := by
  cases c <;> rfl

/-- What is found of an `#if` that the file does not close. -/
def OpenIf.unclosed (o : OpenIf) : LineError := ⟨o.openedAt, .unclosedIf, "#if without #endif"⟩

namespace LineReport

/-- The directives that are found to have no partner. -/
def unbalanced (r : LineReport) : List LineError := r.errors.filter (·.code.isUnbalanced)

theorem unbalanced_addErrors (r : LineReport) (es : List LineError) :
    (r.addErrors es).unbalanced = r.unbalanced ++ es.filter (·.code.isUnbalanced) :=
  List.filter_append r.errors es

theorem unbalanced_addErrors_of_balanced (r : LineReport) {es : List LineError}
    (h : ∀ e ∈ es, e.code.isUnbalanced = false) : (r.addErrors es).unbalanced = r.unbalanced := by
  have hes : es.filter (·.code.isUnbalanced) = [] :=
    List.filter_eq_nil_iff.mpr fun e he => by rw [h e he]; exact Bool.false_ne_true
  rw [unbalanced_addErrors, hes, List.append_nil]

theorem unbalanced_append (r t : LineReport) :
    (r ++ t).unbalanced = r.unbalanced ++ t.unbalanced :=
  List.filter_append r.errors t.errors

theorem filter_unbalanced (r : LineReport) {c : ErrorCode} (hc : c.isUnbalanced = true) :
    r.unbalanced.filter (·.code = c) = r.errors.filter (·.code = c) := by
  rw [unbalanced, List.filter_filter]
  refine List.filter_congr fun e _ => ?_
  by_cases he : e.code = c
  · rw [he, hc, Bool.and_true]
  · rw [decide_eq_false he, Bool.false_and]

end LineReport

namespace FilePass

variable {p : FilePass}

theorem unbalanced_addError (p : FilePass) (index : Nat) {code : ErrorCode} (message : String)
    (h : code.isUnbalanced = false) :
    (p.addError index code message).report.unbalanced = p.report.unbalanced :=
  p.report.unbalanced_addErrors_of_balanced fun e he => by
    obtain rfl := List.mem_singleton.mp he
    exact h

theorem unbalanced_evaluate (p : FilePass) (s : Symbols hash) (index : Nat) (text : List Char) :
    (p.evaluate s index text).2.1.report.unbalanced = p.report.unbalanced := by
  unfold evaluate
  dsimp only
  split
  · split
    · rfl
    · next e _ => exact p.unbalanced_addError index _ e.isUnbalanced_code
  · refine p.report.unbalanced_addErrors_of_balanced fun e he => ?_
    obtain ⟨lex, -, rfl⟩ := List.mem_map.mp he
    exact lex.cause.isUnbalanced_code

theorem unbalanced_setValue (p : FilePass) (s : Symbols hash) (index : Nat) (name : String)
    (value : Int64) : (p.setValue s index name value).1.report.unbalanced = p.report.unbalanced :=
  congrArg (List.filter _) (errors_setValue p s index name value)

theorem unbalanced_define (p : FilePass) (s : Symbols hash) (index : Nat) (body : List Char) :
    (p.define s index body).1.report.unbalanced = p.report.unbalanced := by
  unfold define
  split
  · exact p.unbalanced_addError index _ rfl
  · exact unbalanced_setValue ..
  · next name text _ _ =>
    have h := unbalanced_evaluate p s index text
    split
    · next hrun =>
      rw [hrun] at h
      exact (unbalanced_setValue ..).trans h
    · next hrun =>
      rw [hrun] at h
      exact h

theorem unbalanced_openBlock (p : FilePass) (s : Symbols hash) (index : Nat)
    (condition : List Char) :
    (p.openBlock s index condition).1.report.unbalanced = p.report.unbalanced := by
  unfold openBlock
  split
  · next depth _ _ => exact unbalanced_evaluate { p with depth } s index condition
  · unfold openSkipped
    split
    · rfl
    · exact p.unbalanced_addError index _ rfl

theorem unbalanced_otherBranch (p : FilePass) (index : Nat) :
    (p.otherBranch index).report.unbalanced = p.report.unbalanced := by
  unfold otherBranch
  split
  · exact p.unbalanced_addError index _ rfl
  · split
    · exact p.unbalanced_addError index _ rfl
    · rfl

theorem unbalanced_direct (p : FilePass) (s : Symbols hash) (index : Nat) (d : Directive) :
    (p.direct s index d).2.1.report.unbalanced = p.report.unbalanced ++
      if d = .endif ∧ p.blocks = [] then [⟨index, .endifWithoutIf, "#endif without #if"⟩]
      else [] := by
  by_cases hd : d = .endif
  · subst hd
    show (p.closeBlock index).report.unbalanced = _
    unfold closeBlock
    cases hb : p.blocks with
    | nil => exact p.report.unbalanced_addErrors _
    | cons b bs => exact (List.append_nil _).symm
  · rw [if_neg fun h => hd h.1, List.append_nil]
    cases d with
    | if_ condition => exact unbalanced_openBlock p s index condition
    | else_ => exact unbalanced_otherBranch p index
    | endif => exact absurd rfl hd
    | define body =>
      show (if p.isActive then p.define s index body else (p, s)).1.report.unbalanced = _
      split
      · exact unbalanced_define p s index body
      · rfl
    | includeFile => rfl
    | unknown name =>
      show (if p.isActive then p.addError index _ _ else p).report.unbalanced = _
      split
      · exact p.unbalanced_addError index _ rfl
      · rfl

theorem unbalanced_finish (p : FilePass) :
    p.finish.unbalanced = p.report.unbalanced ++
      p.blocks.reverse.map fun b => ⟨b.openedAt, .unclosedIf, "#if without #endif"⟩ := by
  unfold finish
  have hblocks : ∀ e ∈ p.blocks.reverse.map fun b =>
      (⟨b.openedAt, .unclosedIf, "#if without #endif"⟩ : LineError),
      e.code.isUnbalanced = true := by
    intro e he
    obtain ⟨b, -, rfl⟩ := List.mem_map.mp he
    rfl
  have hcomment : ∀ e ∈ p.openComment.toList.map fun line =>
      (⟨line, .unclosedComment, "block comment not closed before end of file"⟩ : LineError),
      ¬e.code.isUnbalanced = true := by
    intro e he
    obtain ⟨line, -, rfl⟩ := List.mem_map.mp he
    exact Bool.false_ne_true
  rw [LineReport.unbalanced_addErrors, List.filter_append, List.filter_eq_self.mpr hblocks,
    List.filter_eq_nil_iff.mpr hcomment, List.append_nil]

end FilePass

/-! Runs. -/

/-- What a pass is told: to process a line, with what the passes of the script share by then, or to
give what it has found. -/
inductive PassCall (hash : NameHash)
  | processLine (s : Symbols hash) (index : Nat) (line : Line)
  | takeReport

/-- A pass with the directives that it has executed and with what it has given away. -/
structure PassRun (hash : NameHash) where
  pass : FilePass
  executed : List (Execution hash)
  taken : LineReport

namespace PassRun

open LineReport (unbalanced_append)

def start : PassRun hash := ⟨.start, [], .empty⟩

def step (r : PassRun hash) : PassCall hash → PassRun hash
  | .processLine s index line =>
    let executed := (r.pass.executed? line).toList.map fun d => ⟨s, index, d⟩
    { r with pass := (r.pass.processLine s index line).2.1, executed := r.executed ++ executed }
  | .takeReport =>
    let (report, pass) := r.pass.takeReport
    { r with pass, taken := r.taken ++ report }

/-- The run from the start of a file. -/
def ofCalls (calls : List (PassCall hash)) : PassRun hash := calls.foldl step start

def openIfs (r : PassRun hash) : List OpenIf := r.executed.foldl OpenIf.execute []

def found (r : PassRun hash) : LineReport := r.taken ++ r.pass.report

/-- All that is found in the file if it ends here. -/
def foundAtEnd (r : PassRun hash) : LineReport := r.taken ++ r.pass.finish

variable {r : PassRun hash}

/-- What every step keeps. Each `#if` is still open or has its `#endif`, and each `#endif` has its
`#if` or is found to have none. -/
structure Kept (r : PassRun hash) : Prop where
  depthCounts : r.pass.DepthCounts
  within : r.pass.Within r.openIfs
  isNested : OpenIf.IsNested r.openIfs
  code_unbalanced : ∀ e ∈ r.found.unbalanced, e.code = .endifWithoutIf
  count_eq : r.executed.countP (·.directive.isIf) + r.found.unbalanced.length =
    r.executed.countP (·.directive.isEndif) + r.openIfs.length

theorem kept_start : (start : PassRun hash).Kept where
  depthCounts := rfl
  within := rfl
  isNested := OpenIf.isNested_nil
  code_unbalanced := fun _ he => absurd he List.not_mem_nil
  count_eq := rfl

/-- A step in which no directive is executed. -/
theorem Kept.congr (h : r.Kept) {r' : PassRun hash} (hblocks : r'.pass.blocks = r.pass.blocks)
    (hdepth : r'.pass.depth = r.pass.depth) (hexecuted : r'.executed = r.executed)
    (hfound : r'.found = r.found) : r'.Kept where
  depthCounts := h.depthCounts.congr hblocks hdepth
  within := by
    rw [FilePass.Within, hblocks, openIfs, hexecuted]
    exact h.within
  isNested := by
    rw [openIfs, hexecuted]
    exact h.isNested
  code_unbalanced := by
    rw [hfound]
    exact h.code_unbalanced
  count_eq := by
    rw [hexecuted, hfound, openIfs, hexecuted]
    exact h.count_eq

/-- The run goes on with a directive, and a comment may begin or end in its line. -/
def execute (r : PassRun hash) (s : Symbols hash) (index : Nat) (d : Directive)
    (comment : Option Nat) : PassRun hash :=
  { r with
    pass := ({ r.pass with openComment := comment }.direct s index d).2.1
    executed := r.executed ++ [⟨s, index, d⟩] }

section

variable (s : Symbols hash) (index : Nat) (d : Directive) (comment : Option Nat)

theorem openIfs_execute :
    (r.execute s index d comment).openIfs = OpenIf.execute r.openIfs ⟨s, index, d⟩ := by
  rw [openIfs, execute, List.foldl_append]
  rfl

theorem unbalanced_execute (h : r.pass.Within r.openIfs) :
    (r.execute s index d comment).found.unbalanced = r.found.unbalanced ++
      if d = .endif ∧ r.openIfs = [] then [⟨index, .endifWithoutIf, "#endif without #if"⟩]
      else [] := by
  have houtside : r.pass.blocks = [] ↔ r.openIfs = [] := by rw [h, OpenIf.blocks_eq_nil_iff]
  have hdirect := { r.pass with openComment := comment }.unbalanced_direct s index d
  rw [found, execute, unbalanced_append, hdirect, ← List.append_assoc, ← unbalanced_append]
  simp only [houtside, found]

/-- An `#endif` outside of all ifs is found, and any other directive is told by the open ifs. -/
theorem Kept.execute (h : r.Kept) : (r.execute s index d comment).Kept := by
  have hcounts : ({ r.pass with openComment := comment } : FilePass).DepthCounts :=
    h.depthCounts.congr rfl rfl
  have hwithin : ({ r.pass with openComment := comment } : FilePass).Within r.openIfs := h.within
  have hopen := openIfs_execute (r := r) s index d comment
  have hfound := unbalanced_execute s index d comment h.within
  constructor
  · exact hcounts.direct s index d
  · rw [hopen]
    exact hwithin.direct hcounts s index d
  · rw [hopen]
    exact h.isNested.execute _
  · intro e he
    rw [hfound] at he
    rcases List.mem_append.mp he with hbefore | hnow
    · exact h.code_unbalanced e hbefore
    · split at hnow
      · rw [List.mem_singleton.mp hnow]
      · exact absurd hnow List.not_mem_nil
  · have hlength := OpenIf.length_execute r.openIfs (⟨s, index, d⟩ : Execution hash)
    have hcount := h.count_eq
    rw [hopen, hfound, List.length_append, PassRun.execute, List.countP_append,
      List.countP_append, List.countP_singleton, List.countP_singleton]
    by_cases houtside : d = .endif ∧ r.openIfs = []
    · rw [if_pos houtside] at hlength ⊢
      dsimp only [List.length_singleton] at hlength ⊢
      omega
    · rw [if_neg houtside] at hlength ⊢
      dsimp only [List.length_nil] at hlength ⊢
      omega

end

theorem Kept.step (h : r.Kept) (call : PassCall hash) : (r.step call).Kept := by
  cases call with
  | processLine s index line =>
    obtain ⟨c, hq⟩ := r.pass.processLine_cases s index line
    unfold PassRun.step
    dsimp only
    rw [hq]
    cases r.pass.executed? line with
    | none => exact h.congr rfl rfl (List.append_nil _) rfl
    | some d => exact h.execute s index d c
  | takeReport => exact h.congr rfl rfl rfl (LineReport.append_empty _)

theorem kept_foldl (h : r.Kept) (calls : List (PassCall hash)) : (calls.foldl step r).Kept := by
  induction calls generalizing r with
  | nil => exact h
  | cons call calls ih => exact ih (h.step call)

/-! The end of a file. -/

theorem Kept.unbalanced_foundAtEnd (h : r.Kept) :
    r.foundAtEnd.unbalanced = r.found.unbalanced ++
      r.openIfs.reverse.map OpenIf.unclosed := by
  have hblocks : r.pass.blocks.reverse.map (·.openedAt) = r.openIfs.reverse.map (·.openedAt) := by
    rw [h.within, List.map_reverse, List.map_reverse, OpenIf.map_openedAt_blocks]
  have hmap := congrArg
    (List.map fun line => (⟨line, .unclosedIf, "#if without #endif"⟩ : LineError)) hblocks
  rw [List.map_map, List.map_map] at hmap
  rw [foundAtEnd, unbalanced_append, FilePass.unbalanced_finish, ← List.append_assoc,
    ← unbalanced_append]
  exact congrArg _ hmap

theorem Kept.filter_unclosedIf (h : r.Kept) :
    r.foundAtEnd.errors.filter (·.code = .unclosedIf) =
      r.openIfs.reverse.map OpenIf.unclosed := by
  have hbefore : r.found.unbalanced.filter (·.code = .unclosedIf) = [] :=
    List.filter_eq_nil_iff.mpr fun e he => by simp [h.code_unbalanced e he]
  have hend : ∀ e ∈ r.openIfs.reverse.map OpenIf.unclosed,
      decide (e.code = .unclosedIf) = true := by
    intro e he
    obtain ⟨o, -, rfl⟩ := List.mem_map.mp he
    rfl
  rw [← LineReport.filter_unbalanced _ rfl, h.unbalanced_foundAtEnd, List.filter_append, hbefore,
    List.filter_eq_self.mpr hend, List.nil_append]

theorem Kept.countP_endifWithoutIf (h : r.Kept) :
    r.foundAtEnd.errors.countP (·.code = .endifWithoutIf) = r.found.unbalanced.length := by
  have hbefore : r.found.unbalanced.filter (·.code = .endifWithoutIf) = r.found.unbalanced :=
    List.filter_eq_self.mpr fun e he => decide_eq_true (h.code_unbalanced e he)
  have hend : (r.openIfs.reverse.map OpenIf.unclosed).filter (·.code = .endifWithoutIf) = [] := by
    refine List.filter_eq_nil_iff.mpr fun e he => ?_
    obtain ⟨o, -, rfl⟩ := List.mem_map.mp he
    exact Bool.false_ne_true
  rw [List.countP_eq_length_filter, ← LineReport.filter_unbalanced _ rfl,
    h.unbalanced_foundAtEnd, List.filter_append, hbefore, hend, List.append_nil]

/-- What holds of the open blocks of a pass and of the faults in its directives. -/
structure Balanced (r : PassRun hash) : Prop where
  /-- The open blocks are the open ifs. -/
  within : r.pass.Within r.openIfs
  isActive_iff : r.pass.isActive = true ↔
    ∀ o ∈ r.openIfs, o.counted = true ∧ o.isSelected = true
  depth_eq : r.pass.depth.depth = r.pass.blocks.countP (·.counted)
  depth_le : r.pass.depth.depth ≤ 256
  /-- A block that counts can always be left. -/
  depth_pos : ∀ b ∈ r.pass.blocks.head?, b.counted = true → 0 < r.pass.depth.depth
  countP_around : ∀ b around, b :: around <:+ r.pass.blocks → b.counted = false →
    around.countP (·.counted) = 256
  count_eq :
    r.executed.countP (·.directive.isIf) +
        r.foundAtEnd.errors.countP (·.code = .endifWithoutIf) =
      r.executed.countP (·.directive.isEndif) +
        r.foundAtEnd.errors.countP (·.code = .unclosedIf)
  unclosed : r.foundAtEnd.errors.filter (·.code = .unclosedIf) =
    r.openIfs.reverse.map OpenIf.unclosed

/-- In every run from the start of a file, the executed directives tell which blocks are open and
whether the pass is active, and each of them that has no partner is found once. -/
theorem ofCalls_balanced (calls : List (PassCall hash)) : (ofCalls calls).Balanced := by
  have h : (ofCalls calls).Kept := kept_foldl kept_start calls
  constructor
  · exact h.within
  · rw [h.within.isActive, OpenIf.areSelected, List.all_eq_true]
    simp only [Bool.and_eq_true]
  · exact h.depthCounts.depth_eq
  · rw [h.within.depth h.depthCounts]
    exact h.isNested.countP_le
  · intro b hb hcounted
    rw [h.depthCounts.depth_eq]
    exact List.countP_pos_iff.mpr ⟨b, List.mem_of_mem_head? hb, hcounted⟩
  · intro b around hsuffix hcounted
    rw [h.within] at hsuffix
    obtain ⟨o, os, ho, heq, rfl⟩ := OpenIf.exists_of_suffix_blocks hsuffix
    rw [OpenIf.countP_blocks]
    exact h.isNested.countP_around o os ho (heq.symm.trans hcounted)
  · have hclosed : (ofCalls calls).foundAtEnd.errors.countP (·.code = .unclosedIf) =
        (ofCalls calls).openIfs.length := by
      rw [List.countP_eq_length_filter, h.filter_unclosedIf, List.length_map, List.length_reverse]
    rw [h.countP_endifWithoutIf, hclosed]
    exact h.count_eq
  · exact h.filter_unclosedIf

/-! Files as runs. -/

/-- The calls that preprocess the lines of a file, with what each line sees of those before it. -/
def ofLines (p : FilePass) (s : Symbols hash) (index : Nat) : List Line → List (PassCall hash)
  | [] => []
  | line :: lines =>
    let (_, q, s') := p.processLine s index line
    .processLine s index line :: ofLines q s' (index + 1) lines

theorem pass_foldl_ofLines (r : PassRun hash) (s : Symbols hash) (index : Nat)
    (lines : List Line) :
    ((ofLines r.pass s index lines).foldl step r).pass =
        (r.pass.processFrom s index lines).2.1 ∧
      ((ofLines r.pass s index lines).foldl step r).taken = r.taken := by
  induction lines generalizing r s index with
  | nil => exact ⟨rfl, rfl⟩
  | cons line lines ih => exact ih (r.step (.processLine s index line)) _ _

/-- What is found in a file is found at the end of the run over its lines. -/
theorem foundAtEnd_ofLines (s : Symbols hash) (lines : List Line) :
    (ofCalls (ofLines .start s 0 lines)).foundAtEnd = (FilePass.processLines s lines).2.1 := by
  obtain ⟨hpass, htaken⟩ := pass_foldl_ofLines (start : PassRun hash) s 0 lines
  exact congr (congrArg (fun t q => t ++ FilePass.finish q) htaken) hpass

end PassRun
end ScriptFront
