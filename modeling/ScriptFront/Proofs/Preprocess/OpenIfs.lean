import ScriptFront.Proofs.Preprocess.Reachable

/-! The ifs that are open after some directives, told from the directives alone. Whether a part of
the file is chosen is asked of all of them, without flags that sum up what stands around a block.
Main statement: the blocks of a pass are these ifs. -/
namespace ScriptFront

variable {hash : NameHash}

namespace Directive

def isIf : Directive → Bool
  | if_ _ => true
  | _ => false

def isEndif : Directive → Bool
  | endif => true
  | _ => false

end Directive

/-- An executed directive, with the index of its line and what its pass shares with others. -/
structure Execution (hash : NameHash) where
  symbols : Symbols hash
  index : Nat
  directive : Directive

/-- An `#if` whose `#endif` has not come. -/
structure OpenIf where
  openedAt : Nat
  /-- Its condition was evaluated, and its value is not 0. -/
  holds : Bool
  /-- Its `#else` has come. -/
  inElse : Bool
  /-- It counts as a level of nesting. -/
  counted : Bool
  deriving DecidableEq, Repr

namespace OpenIf

/-- The file is in the branch that the condition chooses. -/
def isSelected (o : OpenIf) : Bool := o.holds != o.inElse

/-- Lines are kept: each of the ifs around them counts and is in its selected branch. -/
def areSelected (os : List OpenIf) : Bool := os.all fun o => o.counted && o.isSelected

/-- The ifs that are open after the directive, with the innermost first. -/
def execute (os : List OpenIf) (e : Execution hash) : List OpenIf :=
  match e.directive with
  | .if_ condition =>
    let counted := decide (os.countP (·.counted) < FilePass.maxDepth)
    let holds := counted && areSelected os && (e.symbols.value? condition).any (· != 0)
    ⟨e.index, holds, false, counted⟩ :: os
  | .else_ =>
    match os with
    | [] => []
    | o :: os => { o with inElse := true } :: os
  | .endif => os.tail
  | _ => os

def blocks : List OpenIf → List Block
  | [] => []
  | o :: os =>
    ⟨o.openedAt, areSelected os && o.counted, o.isSelected, o.inElse, o.counted⟩ :: blocks os

theorem areSelected_cons (o : OpenIf) (os : List OpenIf) :
    areSelected (o :: os) = (areSelected os && o.counted && o.isSelected) := by
  rw [areSelected, List.all_cons, Bool.and_comm, Bool.and_assoc]
  rfl

theorem countP_blocks (os : List OpenIf) :
    (blocks os).countP (·.counted) = os.countP (·.counted) := by
  induction os with
  | nil => rfl
  | cons o os ih => rw [blocks, List.countP_cons, List.countP_cons, ih]

theorem blocks_eq_nil_iff {os : List OpenIf} : blocks os = [] ↔ os = [] := by
  cases os with
  | nil => exact iff_of_true rfl rfl
  | cons o os => exact iff_of_false (List.cons_ne_nil _ _) (List.cons_ne_nil _ _)

theorem map_openedAt_blocks (os : List OpenIf) :
    (blocks os).map (·.openedAt) = os.map (·.openedAt) := by
  induction os with
  | nil => rfl
  | cons o os ih => rw [blocks, List.map_cons, List.map_cons, ih]

theorem exists_of_suffix_blocks {os : List OpenIf} {b : Block} {bs : List Block}
    (h : b :: bs <:+ blocks os) :
    ∃ o around, o :: around <:+ os ∧ b.counted = o.counted ∧ bs = blocks around := by
  induction os with
  | nil => exact absurd (List.suffix_nil.mp h) (List.cons_ne_nil b bs)
  | cons o os ih =>
    rcases List.suffix_cons_iff.mp h with heq | hin
    · cases heq
      exact ⟨o, os, List.suffix_rfl, rfl, rfl⟩
    · obtain ⟨o', around, hsuffix, hrest⟩ := ih hin
      exact ⟨o', around, hsuffix.trans (List.suffix_cons o os), hrest⟩

/-- An `#if` fails to count only if as many count around it as may. -/
structure IsNested (os : List OpenIf) : Prop where
  countP_le : os.countP (·.counted) ≤ FilePass.maxDepth
  countP_around : ∀ o around, o :: around <:+ os → o.counted = false →
    around.countP (·.counted) = FilePass.maxDepth

variable {os : List OpenIf} {o : OpenIf}

theorem isNested_nil : IsNested [] :=
  ⟨Nat.zero_le _, fun o around h _ => absurd (List.suffix_nil.mp h) (List.cons_ne_nil o around)⟩

theorem IsNested.tail (h : IsNested os) : IsNested os.tail :=
  ⟨Nat.le_trans (List.tail_sublist os).countP_le h.countP_le, fun o around hsuffix =>
    h.countP_around o around (hsuffix.trans (List.tail_suffix os))⟩

theorem IsNested.cons (h : IsNested os)
    (ho : o.counted = decide (os.countP (·.counted) < FilePass.maxDepth)) : IsNested (o :: os) := by
  have hle := h.countP_le
  refine ⟨?_, fun o' around hsuffix hcounted => ?_⟩
  · rw [List.countP_cons]
    split
    · next hcounted =>
      have hroom := of_decide_eq_true (ho.symm.trans hcounted)
      omega
    · exact hle
  · rcases List.suffix_cons_iff.mp hsuffix with heq | hin
    · cases heq
      have hfull := of_decide_eq_false (ho.symm.trans hcounted)
      omega
    · exact h.countP_around o' around hin hcounted

/-- Whether an `#if` counts is settled when it opens. -/
theorem IsNested.congr_head (h : IsNested (o :: os)) {o' : OpenIf} (ho : o'.counted = o.counted) :
    IsNested (o' :: os) := by
  refine ⟨?_, fun o'' around hsuffix hcounted => ?_⟩
  · have hle := h.countP_le
    rw [List.countP_cons] at hle ⊢
    rw [ho]
    exact hle
  · rcases List.suffix_cons_iff.mp hsuffix with heq | hin
    · cases heq
      exact h.countP_around o os List.suffix_rfl (ho.symm.trans hcounted)
    · exact h.tail.countP_around o'' around hin hcounted

theorem IsNested.execute (h : IsNested os) (e : Execution hash) : IsNested (execute os e) := by
  unfold OpenIf.execute
  split
  · exact h.cons rfl
  · split
    · exact isNested_nil
    · exact h.congr_head rfl
  · exact h.tail
  · exact h

/-- A directive opens an `#if` or closes one, if there is one to close. -/
theorem length_execute (os : List OpenIf) (e : Execution hash) :
    (execute os e).length + (if e.directive.isEndif then 1 else 0) =
      os.length + (if e.directive.isIf then 1 else 0) +
        (if e.directive = .endif ∧ os = [] then 1 else 0) := by
  obtain ⟨s, index, d⟩ := e
  cases d with
  | if_ condition => rfl
  | endif => cases os <;> simp [execute, Directive.isEndif, Directive.isIf]
  | else_ => cases os <;> rfl
  | define body | includeFile | unknown name => rfl

end OpenIf

namespace FilePass

open OpenIf (areSelected execute)

variable {p : FilePass} {os : List OpenIf}

theorem blocks_evaluate (p : FilePass) (s : Symbols hash) (index : Nat) (text : List Char) :
    (p.evaluate s index text).2.1.blocks = p.blocks := by
  rw [evaluate_eq]
  rfl

/-- A block that counts opens if there is room for it, and its branch is chosen if moreover the pass
is active and the condition has a value other than 0. -/
theorem blocks_openBlock (p : FilePass) (s : Symbols hash) (index : Nat) (condition : List Char) :
    (p.openBlock s index condition).1.blocks =
      let counted := decide (p.depth.depth < p.depth.limit)
      let holds := counted && p.isActive && (s.value? condition).any (· != 0)
      ⟨index, p.isActive && counted, holds, false, counted⟩ :: p.blocks := by
  unfold openBlock openSkipped DepthLimit.descend
  by_cases hroom : p.depth.depth < p.depth.limit
  · cases ha : p.isActive with
    | true => simp [hroom, value_evaluate, blocks_evaluate]
    | false => simp [hroom]
  · simp only [hroom, addError]
    simp

theorem DepthCounts.depth_eq (h : p.DepthCounts) :
    p.depth.depth = p.blocks.countP (·.counted) := congrArg DepthLimit.depth h

/-- The open blocks of the pass are these ifs. -/
def Within (p : FilePass) (os : List OpenIf) : Prop := p.blocks = OpenIf.blocks os

/-- What the innermost block tells of the blocks around it is true to all of them. -/
theorem Within.isActive (h : p.Within os) : p.isActive = areSelected os := by
  rw [FilePass.isActive, h]
  cases os with
  | nil => rfl
  | cons o os => exact (OpenIf.areSelected_cons o os).symm

theorem Within.depth (h : p.Within os) (hd : p.DepthCounts) :
    p.depth.depth = os.countP (·.counted) := by
  rw [hd, h, OpenIf.countP_blocks]

theorem Within.openBlock (h : p.Within os) (hd : p.DepthCounts) (s : Symbols hash) (index : Nat)
    (condition : List Char) :
    (p.openBlock s index condition).1.Within (execute os ⟨s, index, .if_ condition⟩) := by
  have hlimit : p.depth.limit = maxDepth := by rw [hd]
  rw [Within, blocks_openBlock, h.depth hd, hlimit, h.isActive, h]
  simp only [execute, OpenIf.blocks, OpenIf.isSelected, Bool.bne_false]

theorem Within.otherBranch (h : p.Within os) (s : Symbols hash) (index : Nat) :
    (p.otherBranch index).Within (execute os ⟨s, index, .else_⟩) := by
  unfold Within at h ⊢
  unfold FilePass.otherBranch
  cases os with
  | nil =>
    rw [h]
    exact h
  | cons o os =>
    simp only [h, OpenIf.blocks]
    cases ho : o.inElse with
    | true =>
      have hsame : ({ o with inElse := true } : OpenIf) = o := by rw [← ho]
      simp only [execute, hsame]
      exact h
    | false =>
      rw [if_neg Bool.false_ne_true]
      simp only [execute, OpenIf.blocks, OpenIf.isSelected, ho, Bool.bne_false, Bool.bne_true]

theorem Within.closeBlock (h : p.Within os) (s : Symbols hash) (index : Nat) :
    (p.closeBlock index).Within (execute os ⟨s, index, .endif⟩) := by
  unfold Within at h ⊢
  unfold FilePass.closeBlock
  rw [h]
  cases os with
  | nil => exact h
  | cons o os => rfl

theorem Within.direct (h : p.Within os) (hd : p.DepthCounts) (s : Symbols hash) (index : Nat)
    (d : Directive) : (p.direct s index d).2.1.Within (execute os ⟨s, index, d⟩) := by
  cases d with
  | if_ condition => exact h.openBlock hd s index condition
  | else_ => exact h.otherBranch s index
  | endif => exact h.closeBlock s index
  | define body =>
    show (if p.isActive then p.define s index body else (p, s)).1.Within os
    split
    · rw [define_eq]
      exact h
    · exact h
  | includeFile => exact h
  | unknown name =>
    show (if p.isActive then p.addError index _ _ else p).Within os
    split <;> exact h

end FilePass
end ScriptFront
