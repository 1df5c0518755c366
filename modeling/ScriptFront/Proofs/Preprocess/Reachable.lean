import ScriptFront.Proofs.Preprocess.Frame

/-! Passes as they come about: the depth of each is the number of its open blocks that count. -/
namespace ScriptFront.FilePass

variable {hash : NameHash} {p : FilePass}

/-- The pass comes from the start of a file by lines and reports, whatever they were. -/
inductive Reachable (hash : NameHash) : FilePass → Prop
  | start : Reachable hash start
  | processLine {p : FilePass} (h : Reachable hash p) (s : Symbols hash) (index : Nat)
      (line : Line) : Reachable hash (p.processLine s index line).2.1
  | takeReport {p : FilePass} (h : Reachable hash p) : Reachable hash p.takeReport.2

def DepthCounts (p : FilePass) : Prop :=
  p.depth = ⟨p.blocks.countP (·.counted), maxDepth⟩

theorem DepthCounts.congr (h : p.DepthCounts) {q : FilePass} (hb : q.blocks = p.blocks)
    (hd : q.depth = p.depth) : q.DepthCounts := by
  unfold DepthCounts
  rw [hb, hd]
  exact h

/-- A new block that counts takes one level. -/
theorem DepthCounts.push (h : p.DepthCounts) {depth : DepthLimit}
    (hd : p.depth.descend = .ok depth) {q : FilePass} {b : Block} (hb : b.counted = true)
    (hq : q.blocks = b :: p.blocks) (hdepth : q.depth = depth) : q.DepthCounts := by
  unfold DepthCounts at h ⊢
  rw [DepthLimit.descend, h] at hd
  split at hd
  · cases hd
    rw [hdepth, hq, List.countP_cons_of_pos hb]
  · cases hd

theorem DepthCounts.openSkipped (h : p.DepthCounts) (index : Nat) :
    (p.openSkipped index).DepthCounts := by
  unfold FilePass.openSkipped
  cases hd : p.depth.descend with
  | ok depth => exact h.push hd (b := ⟨index, false, false, false, true⟩) rfl rfl rfl
  | error e =>
    unfold DepthCounts at h ⊢
    show p.depth = ⟨List.countP _ (_ :: p.blocks), maxDepth⟩
    rw [List.countP_cons_of_neg Bool.false_ne_true, h]

theorem DepthCounts.openBlock (h : p.DepthCounts) (s : Symbols hash) (index : Nat)
    (condition : List Char) : (p.openBlock s index condition).1.DepthCounts := by
  unfold FilePass.openBlock
  split
  · next depth ha hd =>
    rw [evaluate_eq]
    exact h.push hd (b := ⟨index, true, _, false, true⟩) rfl rfl rfl
  · exact h.openSkipped index

theorem DepthCounts.otherBranch (h : p.DepthCounts) (index : Nat) :
    (p.otherBranch index).DepthCounts := by
  unfold FilePass.otherBranch
  split
  · exact h.congr rfl rfl
  · next b bs hb =>
    split
    · exact h.congr rfl rfl
    · unfold DepthCounts at h ⊢
      rw [hb, List.countP_cons] at h
      rw [List.countP_cons]
      exact h

theorem DepthCounts.closeBlock (h : p.DepthCounts) (index : Nat) :
    (p.closeBlock index).DepthCounts := by
  unfold FilePass.closeBlock
  split
  · exact h.congr rfl rfl
  · next b bs hb =>
    unfold DepthCounts at h ⊢
    rw [hb] at h
    cases hcount : b.counted with
    | true =>
      rw [List.countP_cons_of_pos hcount] at h
      rw [if_pos rfl, h]
      rfl
    | false =>
      rw [List.countP_cons_of_neg (by rw [hcount]; exact Bool.false_ne_true)] at h
      exact h

theorem DepthCounts.direct (h : p.DepthCounts) (s : Symbols hash) (index : Nat) (d : Directive) :
    (p.direct s index d).2.1.DepthCounts := by
  cases d with
  | if_ condition => exact h.openBlock s index condition
  | else_ => exact h.otherBranch index
  | endif => exact h.closeBlock index
  | define body =>
    show (if p.isActive then p.define s index body else (p, s)).1.DepthCounts
    split
    · rw [define_eq]
      exact h.congr rfl rfl
    · exact h
  | includeFile => exact h
  | unknown name =>
    show (if p.isActive then p.addError index _ _ else p).DepthCounts
    split
    · exact h.congr rfl rfl
    · exact h

theorem DepthCounts.code (h : p.DepthCounts) (index : Nat) (line : Line) :
    (p.code index line).2.DepthCounts := by
  unfold FilePass.code
  split
  · show FilePass.DepthCounts (if _ then _ else _)
    split
    · exact h.congr rfl rfl
    · exact h
  · exact h

theorem DepthCounts.processLine (h : p.DepthCounts) (s : Symbols hash) (index : Nat)
    (line : Line) : (p.processLine s index line).2.1.DepthCounts := by
  unfold FilePass.processLine
  split
  · split
    · exact h
    · exact DepthCounts.code (p := { p with openComment := none }) (h.congr rfl rfl) index _
  · split
    · apply DepthCounts.direct
      split
      · exact h.congr rfl rfl
      · exact h
    · exact h.code index line

theorem Reachable.depthCounts (h : Reachable hash p) : p.DepthCounts := by
  induction h with
  | start => rfl
  | processLine _ s index line ih => exact ih.processLine s index line
  | takeReport _ ih => exact ih.congr rfl rfl

end ScriptFront.FilePass
