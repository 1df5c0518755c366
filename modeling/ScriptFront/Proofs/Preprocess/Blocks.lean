import ScriptFront.Proofs.Condition.Climbing
import ScriptFront.Proofs.Preprocess.Items
import ScriptFront.Proofs.Preprocess.Reachable

/-! The stack of open blocks tells of each line whether its branch is chosen, so the lines of a tree
are processed as its meaning tells. -/
namespace ScriptFront

namespace FilePass

variable {hash : NameHash} {p q : FilePass} {s s' : Symbols hash} {index : Nat}

theorem processFrom_cons {s'' : Symbols hash} {line line' : Line} {lines out : List Line}
    {r : FilePass} (h : p.processLine s index line = (line', q, s'))
    (h' : q.processFrom s' (index + 1) lines = (out, r, s'')) :
    p.processFrom s index (line :: lines) = (line' :: out, r, s'') := by
  simp only [processFrom, h, h']

theorem processFrom_trans {s'' : Symbols hash} {xs ys out out' : List Line} {r : FilePass}
    (h : p.processFrom s index xs = (out, q, s'))
    (h' : q.processFrom s' (index + xs.length) ys = (out', r, s'')) :
    p.processFrom s index (xs ++ ys) = (out ++ out', r, s'') := by
  simp only [processFrom_append, h, h']

/-- The pass in one more block, which counts. -/
def inBlock (p : FilePass) (b : Block) : FilePass :=
  { p with blocks := b :: p.blocks, depth := { p.depth with depth := p.depth.depth + 1 } }

theorem openBlock_of_active (ha : p.isActive = true) (hd : p.depth.depth < p.depth.limit)
    (s : Symbols hash) (index : Nat) (condition : List Char) :
    p.openBlock s index condition =
      let (c, r, s) := Items.holds s p.report index condition
      ((p.withReport r).inBlock ⟨index, true, c, false, true⟩, s) := by
  unfold openBlock DepthLimit.descend evaluate Items.holds
  rw [ha, if_pos hd]
  by_cases he : (tokenize s.names condition).errors.isEmpty
  · cases hv : Condition.evaluate s.definitions.value (tokenize s.names condition).tokens with
    | ok v =>
      simp only [he, hv, if_true]
      rfl
    | error e =>
      simp only [he, hv, if_true]
      rfl
  · simp only [he]
    rfl

theorem openBlock_of_skipped (ha : p.isActive = false) (hd : p.depth.depth < p.depth.limit)
    (s : Symbols hash) (index : Nat) (condition : List Char) :
    p.openBlock s index condition = (p.inBlock ⟨index, false, false, false, true⟩, s) := by
  unfold openBlock openSkipped DepthLimit.descend
  rw [ha, if_pos hd]
  rfl

theorem processLine_opening (hc : p.openComment = none) (ha : p.isActive = true)
    (hd : p.depth.depth < p.depth.limit) {condition : List Char}
    (line : DirectiveLine (.if_ condition)) {c : Bool} {r : LineReport}
    (hcond : Items.holds s p.report index condition = (c, r, s')) :
    p.processLine s index line.1 =
      ([], (p.withReport r).inBlock ⟨index, true, c, false, true⟩, s') := by
  rw [processLine_of_isDirective hc line.2, direct, openBlock_of_active ha hd, hcond]
  rfl

theorem processLine_opening_skipped (hc : p.openComment = none) (ha : p.isActive = false)
    (hd : p.depth.depth < p.depth.limit) {condition : List Char}
    (line : DirectiveLine (.if_ condition)) (s : Symbols hash) (index : Nat) :
    p.processLine s index line.1 = ([], p.inBlock ⟨index, false, false, false, true⟩, s) := by
  rw [processLine_of_isDirective hc line.2, direct, openBlock_of_skipped ha hd]
  rfl

/-- The other branch of a block is chosen if the first one is not. -/
theorem processLine_middle (hc : p.openComment = none) {b : Block} (hb : b.seenElse = false)
    (line : DirectiveLine .else_) (s : Symbols hash) (index : Nat) :
    (p.inBlock b).processLine s index line.1 =
      ([], p.inBlock { b with seenElse := true, taken := !b.taken }, s) := by
  have hother : (p.inBlock b).otherBranch index =
      p.inBlock { b with seenElse := true, taken := !b.taken } := by
    simp only [otherBranch, inBlock, hb]
    rfl
  rw [processLine_of_isDirective (p := p.inBlock b) hc line.2, direct, hother]
  rfl

theorem processLine_closing (hc : p.openComment = none) {b : Block} (hb : b.counted = true)
    (line : DirectiveLine .endif) (s : Symbols hash) (index : Nat) :
    (p.inBlock b).processLine s index line.1 = ([], p, s) := by
  have hclose : (p.inBlock b).closeBlock index = p := by
    simp only [closeBlock, inBlock, hb, DepthLimit.ascend]
    rfl
  rw [processLine_of_isDirective (p := p.inBlock b) hc line.2, direct, hclose]
  rfl

end FilePass

open FilePass

variable {hash : NameHash} {p : FilePass}

namespace Leaf

theorem processLine_skipped (l : Leaf) (hc : p.openComment = none) (ha : p.isActive = false)
    (s : Symbols hash) (index : Nat) : p.processLine s index l.line = ([], p, s) := by
  cases l with
  | code line =>
    rw [Leaf.line, processLine_of_isCode hc line.2, ha]
    rfl
  | define _ line | includeFile line | unknown _ line =>
    rw [Leaf.line, processLine_of_isDirective hc line.2, direct, ha]
    rfl

theorem processLine_active (l : Leaf) (hc : p.openComment = none) (ha : p.isActive = true)
    {s s' : Symbols hash} {index : Nat} {line : Line} {r : LineReport}
    (hm : l.meaning s p.report index = (line, r, s')) :
    p.processLine s index l.line = (line, p.withReport r, s') := by
  cases l with
  | code line =>
    cases hm
    rw [Leaf.line, processLine_of_isCode hc line.2, ha]
    rfl
  | define body line =>
    cases hm
    rw [Leaf.line, processLine_of_isDirective hc line.2, direct, ha, if_pos rfl, define_eq]
    rfl
  | includeFile line =>
    cases hm
    rw [Leaf.line, processLine_of_isDirective hc line.2, direct, ha]
    rfl
  | unknown name line =>
    cases hm
    rw [Leaf.line, processLine_of_isDirective hc line.2, direct, ha]
    rfl

end Leaf

namespace Items

section

variable {condition : List Char} {opening : DirectiveLine (.if_ condition)} {body : Items}
  {middle : DirectiveLine .else_} {other : Items} {closing : DirectiveLine .endif} {rest : Items}

theorem blank_ifThen : (ifThen condition opening body closing rest).blank =
    [] :: (body.blank ++ [] :: rest.blank) := by
  simp only [blank, lines, List.map_cons, List.map_append]

theorem blank_ifElse : (ifElse condition opening body middle other closing rest).blank =
    [] :: (body.blank ++ [] :: (other.blank ++ [] :: rest.blank)) := by
  simp only [blank, lines, List.map_cons, List.map_append]

theorem room_ifThen {n limit : Nat}
    (h : n + (ifThen condition opening body closing rest).nesting ≤ limit) :
    n < limit ∧ n + 1 + body.nesting ≤ limit ∧ n + rest.nesting ≤ limit := by
  simp only [nesting] at h
  omega

theorem room_ifElse {n limit : Nat}
    (h : n + (ifElse condition opening body middle other closing rest).nesting ≤ limit) :
    n < limit ∧ n + 1 + body.nesting ≤ limit ∧ n + 1 + other.nesting ≤ limit ∧
      n + rest.nesting ≤ limit := by
  simp only [nesting] at h
  omega

end

/-- In a branch that is not chosen, no line does anything. -/
theorem processFrom_skipped (t : Items) (hc : p.openComment = none) (ha : p.isActive = false)
    (hd : p.depth.depth + t.nesting ≤ p.depth.limit) (s : Symbols hash) (index : Nat) :
    p.processFrom s index t.lines = (t.blank, p, s) := by
  induction t generalizing p index with
  | done => rfl
  | leaf l rest ih => exact processFrom_cons (l.processLine_skipped hc ha s index) (ih hc ha hd _)
  | ifThen condition opening body closing rest ihb ihr =>
    obtain ⟨hlt, hdb, hdr⟩ := room_ifThen hd
    have hopen := processLine_opening_skipped hc ha hlt opening s index
    rw [lines, blank_ifThen]
    refine processFrom_cons hopen (processFrom_trans (ihb (p := p.inBlock _) hc rfl hdb _) ?_)
    exact processFrom_cons (processLine_closing hc rfl closing s _) (ihr hc ha hdr _)
  | ifElse condition opening body middle other closing rest ihb iho ihr =>
    obtain ⟨hlt, hdb, hdo, hdr⟩ := room_ifElse hd
    have hopen := processLine_opening_skipped hc ha hlt opening s index
    rw [lines, blank_ifElse]
    refine processFrom_cons hopen (processFrom_trans (ihb (p := p.inBlock _) hc rfl hdb _) ?_)
    refine processFrom_cons (processLine_middle hc rfl middle s _) ?_
    refine processFrom_trans (iho (p := p.inBlock _) hc rfl hdo _) ?_
    exact processFrom_cons (processLine_closing hc rfl closing s _) (ihr hc ha hdr _)

/-- The lines of the tree are processed as its meaning tells in every pass that is active and has
room for its blocks. -/
def Runs (hash : NameHash) (t : Items) : Prop :=
  ∀ {p : FilePass}, p.openComment = none → p.isActive = true →
    p.depth.depth + t.nesting ≤ p.depth.limit →
    ∀ {s s' : Symbols hash} {index : Nat} {ls : List Line} {r : LineReport},
      t.meaning s p.report index = (ls, r, s') →
      p.processFrom s index t.lines = (ls, p.withReport r, s')

/-- The lines of a branch, which may be the chosen one. -/
theorem Runs.branch {t : Items} (h : t.Runs hash) (hc : p.openComment = none)
    (hd : p.depth.depth + 1 + t.nesting ≤ p.depth.limit) (b : Block) (hb : b.parentActive = true)
    {s s' : Symbols hash} {index : Nat} {ls : List Line} {r r' : LineReport}
    (hm : (if b.taken then t.meaning s r index else (t.blank, r, s)) = (ls, r', s')) :
    ((p.withReport r).inBlock b).processFrom s index t.lines =
      (ls, (p.withReport r').inBlock b, s') := by
  have ha : ((p.withReport r).inBlock b).isActive = b.taken := by
    show (b.parentActive && b.taken) = b.taken
    rw [hb, Bool.true_and]
  cases ht : b.taken with
  | true =>
    rw [ht, if_pos rfl] at hm
    exact h (p := (p.withReport r).inBlock b) hc (ha.trans ht) hd hm
  | false =>
    rw [ht] at hm
    cases hm
    exact t.processFrom_skipped (p := (p.withReport r).inBlock b) hc (ha.trans ht) hd s index

theorem runs (t : Items) : t.Runs hash := by
  induction t with
  | done =>
    intro p hc ha hd s s' index ls r hm
    cases hm
    rfl
  | leaf l rest ih =>
    intro p hc ha hd s s' index ls r hm
    rcases hl : l.meaning s p.report index with ⟨line, r₁, s₁⟩
    rcases hrest : rest.meaning s₁ r₁ (index + 1) with ⟨ls', r₂, s₂⟩
    simp only [meaning, hl, hrest] at hm
    cases hm
    have hrun := ih (p := p.withReport r₁) hc ha hd hrest
    exact processFrom_cons (l.processLine_active hc ha hl) hrun
  | ifThen condition opening body closing rest ihb ihr =>
    intro p hc ha hd s s' index ls r hm
    obtain ⟨hlt, hdb, hdr⟩ := room_ifThen hd
    rcases hcond : holds s p.report index condition with ⟨c, r₁, s₁⟩
    rcases hbody : (if c then body.meaning s₁ r₁ (index + 1) else (body.blank, r₁, s₁)) with
      ⟨ls₂, r₂, s₂⟩
    rcases hrest : rest.meaning s₂ r₂ (index + 1 + body.length + 1) with ⟨ls₃, r₃, s₃⟩
    simp only [meaning, hcond, hbody, hrest] at hm
    cases hm
    rw [lines]
    refine processFrom_cons (processLine_opening hc ha hlt opening hcond) ?_
    refine processFrom_trans (ihb.branch hc hdb ⟨index, true, c, false, true⟩ rfl hbody) ?_
    refine processFrom_cons (processLine_closing (p := p.withReport r₂) hc rfl closing _ _) ?_
    exact ihr (p := p.withReport r₂) hc ha hdr hrest
  | ifElse condition opening body middle other closing rest ihb iho ihr =>
    intro p hc ha hd s s' index ls r hm
    obtain ⟨hlt, hdb, hdo, hdr⟩ := room_ifElse hd
    rcases hcond : holds s p.report index condition with ⟨c, r₁, s₁⟩
    rcases hbody : (if c then body.meaning s₁ r₁ (index + 1) else (body.blank, r₁, s₁)) with
      ⟨ls₂, r₂, s₂⟩
    rcases hother : (if !c then other.meaning s₂ r₂ (index + 1 + body.length + 1)
      else (other.blank, r₂, s₂)) with ⟨ls₃, r₃, s₃⟩
    rcases hrest : rest.meaning s₃ r₃ (index + 1 + body.length + 1 + other.length + 1) with
      ⟨ls₄, r₄, s₄⟩
    simp only [meaning, hcond, hbody, hother, hrest] at hm
    cases hm
    rw [lines]
    refine processFrom_cons (processLine_opening hc ha hlt opening hcond) ?_
    refine processFrom_trans (ihb.branch hc hdb ⟨index, true, c, false, true⟩ rfl hbody) ?_
    refine processFrom_cons (processLine_middle (p := p.withReport r₂) hc rfl middle _ _) ?_
    refine processFrom_trans (iho.branch hc hdo ⟨index, true, !c, true, true⟩ rfl hother) ?_
    refine processFrom_cons (processLine_closing (p := p.withReport r₃) hc rfl closing _ _) ?_
    exact ihr (p := p.withReport r₃) hc ha hdr hrest

end Items

/-- A pass outside of all blocks and comments processes the lines of a tree as its meaning tells,
and is outside of all blocks and comments after them. -/
theorem FilePass.processFrom_lines (hp : Reachable hash p) (hb : p.blocks = [])
    (hc : p.openComment = none) (t : Items) (ht : t.nesting ≤ 256) (s : Symbols hash)
    (index : Nat) :
    let (ls, r, s') := t.meaning s p.report index
    p.processFrom s index t.lines = (ls, p.withReport r, s') ∧
      (p.withReport r).blocks = [] ∧ (p.withReport r).openComment = none := by
  have ha : p.isActive = true := by
    rw [isActive, hb]
    rfl
  have hdepth : p.depth = ⟨0, 256⟩ := by
    have hcounts := hp.depthCounts
    rw [DepthCounts, hb] at hcounts
    exact hcounts
  have hroom : p.depth.depth + t.nesting ≤ p.depth.limit := by
    rw [hdepth]
    show 0 + t.nesting ≤ 256
    omega
  exact ⟨t.runs hc ha hroom rfl, hb, hc⟩

/-- A name without a definition chooses the other branch. -/
theorem FilePass.processFrom_lines_else :
    let s : Symbols fun _ => 0 := ⟨.empty, .empty⟩
    let lines := ["#if A".toList, "#define B".toList, "#else".toList, "x /* y */".toList,
      "# endif // A".toList, "#include z".toList]
    let s' : Symbols fun _ => 0 := ⟨(tokenize s.names ['A']).names, .empty⟩
    ∃ t : Items, t.lines = lines ∧ t.nesting ≤ 256 ∧ Reachable (fun _ => 0) start ∧
      start.processFrom s 0 lines =
        ([[], [], [], "x  ".toList, [], "#include z".toList], start, s') := by
  intro s lines s'
  let t : Items := .ifElse ['A'] ⟨"#if A".toList, by decide +kernel⟩
    (.leaf (.define ['B'] ⟨"#define B".toList, by decide +kernel⟩) .done)
    ⟨"#else".toList, by decide +kernel⟩
    (.leaf (.code ⟨"x /* y */".toList, by decide +kernel⟩) .done)
    ⟨"# endif // A".toList, by decide +kernel⟩
    (.leaf (.includeFile ⟨"#include z".toList, by decide +kernel⟩) .done)
  have hcond : Items.holds s start.report 0 ['A'] = (false, .empty, s') := by
    have ht : (tokenize s.names ['A']).tokens = (Condition.Tree.name "A").tokens := by
      decide +kernel
    have he : (tokenize s.names ['A']).errors = [] := by decide +kernel
    have hv : Condition.evaluate s.definitions.value (Condition.Tree.name "A").tokens = .ok 0 :=
      Condition.evaluate_eq_ok_of_tree trivial (by decide) rfl
    simp only [Items.holds, ht, he, hv]
    rfl
  have herase : (Text.Comment.erase "x /* y */".toList).text = "x  ".toList := by decide +kernel
  have hm : t.meaning s start.report 0 =
      ([[], [], [], "x  ".toList, [], "#include z".toList], .empty, s') := by
    simp only [t, Items.meaning, Leaf.meaning, hcond, herase]
    rfl
  have h := processFrom_lines .start rfl rfl t (by decide) s 0
  rw [hm] at h
  exact ⟨t, rfl, by decide, .start, h.1⟩

end ScriptFront
