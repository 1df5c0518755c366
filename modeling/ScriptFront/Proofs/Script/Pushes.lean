import ScriptFront.Proofs.Script.LineMap
import Mathlib.Data.List.Induction

/-! A line map that intervals are pushed to in the order of their starts. Intervals that were replaced
are gone from the map, but the search gives what a look at all the pushes gives, from the last one
back. -/
namespace ScriptFront.LineMap

variable {m : LineMap} {pushed : List LineInterval} {line : Nat}

/-- The map after intervals were pushed one after the other. -/
def ofPushes (pushed : List LineInterval) : LineMap := pushed.foldl push empty

/-- The interval that was pushed last of those that start at or before the line. -/
def lastAt? (pushed : List LineInterval) (line : Nat) : Option LineInterval :=
  pushed.reverse.find? (·.start ≤ line)

/-- The interval that was pushed last of those with the smallest start. -/
def lastFirst? (pushed : List LineInterval) : Option LineInterval :=
  pushed.reverse.find? fun i => ∀ j ∈ pushed, i.start ≤ j.start

theorem ofPushes_concat (pushed : List LineInterval) (i : LineInterval) :
    ofPushes (pushed ++ [i]) = (ofPushes pushed).push i := by
  rw [ofPushes, List.foldl_append]
  rfl

theorem mem_of_mem_ofPushes {i : LineInterval} (h : i ∈ (ofPushes pushed).intervals.toList) :
    i ∈ pushed := by
  induction pushed using List.reverseRecOn with
  | nil => cases h
  | append_singleton pushed last ih =>
    rw [ofPushes_concat] at h
    rcases mem_push h with h | rfl
    · exact List.mem_append_left _ (ih h)
    · exact List.mem_concat_self

theorem sorted_ofPushes (h : pushed.Pairwise (·.start ≤ ·.start)) : (ofPushes pushed).Sorted := by
  induction pushed using List.reverseRecOn with
  | nil => exact sorted_empty
  | append_singleton pushed last ih =>
    obtain ⟨hbefore, -, hlast⟩ := List.pairwise_append.mp h
    rw [ofPushes_concat]
    apply (ih hbefore).push
    intro j hj
    exact hlast j (mem_of_mem_ofPushes hj) last List.mem_cons_self

/-- An interval that was replaced would never be found: the one in its place has the same start. -/
theorem at?_ofPushes (pushed : List LineInterval) (line : Nat) :
    (ofPushes pushed).at? line = lastAt? pushed line := by
  induction pushed using List.reverseRecOn with
  | nil => rfl
  | append_singleton pushed last ih =>
    rw [ofPushes_concat, at?_push, ih, lastAt?, lastAt?, List.reverse_concat, List.find?_cons]
    by_cases hlast : last.start ≤ line <;> simp [hlast]

theorem exists_lastAt? {i : LineInterval} (hi : i ∈ pushed) (hle : i.start ≤ line) :
    ∃ j, lastAt? pushed line = some j ∧ j.start ≤ line := by
  have hsome : (lastAt? pushed line).isSome := by
    rw [lastAt?, List.find?_isSome]
    exact ⟨i, List.mem_reverse.mpr hi, by simpa using hle⟩
  obtain ⟨j, hj⟩ := Option.isSome_iff_exists.mp hsome
  exact ⟨j, hj, by simpa using List.find?_some hj⟩

theorem start_le_of_head? (h : m.Sorted) {i j : LineInterval}
    (hi : m.intervals.toList.head? = some i) (hj : j ∈ m.intervals.toList) : i.start ≤ j.start := by
  obtain ⟨l, hl⟩ := List.head?_eq_some_iff.mp hi
  rw [Sorted, hl] at h
  rw [hl] at hj
  rcases List.mem_cons.mp hj with rfl | hj
  · exact Nat.le_refl _
  · exact Nat.le_of_lt (List.rel_of_pairwise_cons h hj)

theorem at?_of_head? (h : m.Sorted) {i : LineInterval} (hi : m.intervals.toList.head? = some i) :
    m.at? i.start = some i := by
  obtain ⟨l, hl⟩ := List.head?_eq_some_iff.mp hi
  rw [Sorted, hl] at h
  have hrest : l.reverse.find? (·.start ≤ i.start) = none := by
    rw [List.find?_eq_none]
    intro j hj
    have hlt := List.rel_of_pairwise_cons h (List.mem_reverse.mp hj)
    simpa using hlt
  rw [at?, hl, List.reverse_cons, List.find?_append, hrest]
  simp

/-- A line before all intervals is looked up in the first one. -/
theorem find?_of_at?_eq_none (h : m.at? line = none) :
    m.find? line = m.intervals.toList.head? := by
  obtain ⟨⟨l⟩⟩ := m
  have hafter : ∀ i ∈ l, line < i.start := by
    intro i hi
    have := List.find?_eq_none.mp h i (List.mem_reverse.mpr hi)
    simpa using this
  have hnone : boundary (startsBy ⟨⟨[] ++ l⟩⟩ line) 0 ([] ++ l).length = 0 :=
    boundary_startsBy (by simp) hafter
  rw [List.nil_append] at hnone
  rw [find?, size, List.size_toArray, hnone, List.head?_eq_getElem?]
  simp

theorem eq_nil_of_ofPushes (h : (ofPushes pushed).intervals.toList = []) : pushed = [] := by
  by_contra hne
  obtain ⟨i, hi⟩ := List.exists_mem_of_ne_nil _ hne
  obtain ⟨j, hj, -⟩ := exists_lastAt? hi (Nat.le_refl _)
  rw [← at?_ofPushes, at?, h] at hj
  cases hj

theorem head?_ofPushes (h : pushed.Pairwise (·.start ≤ ·.start)) :
    (ofPushes pushed).intervals.toList.head? = lastFirst? pushed := by
  have hsorted := sorted_ofPushes h
  cases hhead : (ofPushes pushed).intervals.toList.head? with
  | none =>
    rw [eq_nil_of_ofPushes (List.head?_eq_none_iff.mp hhead)]
    rfl
  | some i =>
    have hmin : ∀ j ∈ pushed, i.start ≤ j.start := by
      intro j hj
      obtain ⟨k, hk, hkj⟩ := exists_lastAt? hj (Nat.le_refl _)
      rw [← at?_ofPushes] at hk
      have hmem := List.mem_reverse.mp (List.mem_of_find?_eq_some hk)
      exact Nat.le_trans (start_le_of_head? hsorted hhead hmem) hkj
    have hi := mem_of_mem_ofPushes (List.mem_of_mem_head? hhead)
    rw [← at?_of_head? hsorted hhead, at?_ofPushes]
    apply List.find?_congr
    intro j hj
    rw [decide_eq_decide]
    constructor
    · intro hji k hk
      exact Nat.le_trans hji (hmin k hk)
    · intro hall
      exact hall i hi

theorem exists_lastFirst? (h : pushed.Pairwise (·.start ≤ ·.start)) (hne : pushed ≠ []) :
    ∃ i ∈ pushed, lastFirst? pushed = some i := by
  rw [← head?_ofPushes h]
  cases hhead : (ofPushes pushed).intervals.toList.head? with
  | none => exact absurd (eq_nil_of_ofPushes (List.head?_eq_none_iff.mp hhead)) hne
  | some i => exact ⟨i, mem_of_mem_ofPushes (List.mem_of_mem_head? hhead), rfl⟩

theorem find?_ofPushes (h : pushed.Pairwise (·.start ≤ ·.start)) (line : Nat) :
    (ofPushes pushed).find? line = (lastAt? pushed line).or (lastFirst? pushed) := by
  rw [← at?_ofPushes]
  cases hat : (ofPushes pushed).at? line with
  | none => rw [find?_of_at?_eq_none hat, head?_ofPushes h, Option.none_or]
  | some i => rw [find?_eq_some_of_at? (sorted_ofPushes h) hat, Option.some_or]

/-- Intervals that are pushed in the order of their starts lie one behind the other after each push. A
line is in the one that was pushed last of those that start at or before it. If all start after it, it
is taken for the first line of the one that was pushed last of those with the smallest start. A number
above the greatest one is given as that one. -/
theorem translate_ofPushes (h : pushed.Pairwise (·.start ≤ ·.start)) (line : Nat) :
    (∀ n, (ofPushes (pushed.take n)).Sorted) ∧
      ((∃ e, (ofPushes pushed).translate line = .error e) ↔ pushed = []) ∧
      (∀ i, lastAt? pushed line = some i → (ofPushes pushed).translate line =
        .ok (i.file, min (line - i.start + i.offset) maxLine)) ∧
      (pushed ≠ [] → (∀ j ∈ pushed, line < j.start) → ∃ i, lastFirst? pushed = some i ∧
        (ofPushes pushed).translate line = .ok (i.file, min i.offset maxLine)) := by
  have hfind := find?_ofPushes h line
  refine ⟨fun n => sorted_ofPushes (h.sublist (List.take_sublist n pushed)), ⟨?_, ?_⟩, ?_, ?_⟩
  · rintro ⟨e, he⟩
    by_contra hne
    obtain ⟨i, -, hi⟩ := exists_lastFirst? h hne
    rw [translate, hfind, hi] at he
    cases hat : lastAt? pushed line <;> simp [hat] at he
  · rintro rfl
    exact ⟨.empty, rfl⟩
  · intro i hi
    rw [translate, hfind, hi, Option.some_or]
  · intro hne hbefore
    obtain ⟨i, hmem, hi⟩ := exists_lastFirst? h hne
    have hnone : lastAt? pushed line = none := by
      rw [lastAt?, List.find?_eq_none]
      intro j hj
      simpa using hbefore j (List.mem_reverse.mp hj)
    have hzero : line - i.start = 0 := Nat.sub_eq_zero_of_le (Nat.le_of_lt (hbefore i hmem))
    refine ⟨i, hi, ?_⟩
    rw [translate, hfind, hnone, hi, Option.none_or]
    simp only [hzero, Nat.zero_add]

/-- Two intervals that were replaced, and a line before all of them. -/
theorem translate_ofPushes_replaced :
    let a : SourceFile := ⟨"a.lemon", "a"⟩
    let b : SourceFile := ⟨"b.lemon", "b"⟩
    let pushed : List LineInterval := [⟨3, a, 7⟩, ⟨3, b, 1⟩, ⟨9, b, 0⟩, ⟨9, a, 5⟩]
    pushed.Pairwise (·.start ≤ ·.start) ∧ (ofPushes pushed).translate 2 = .ok (b, 1) ∧
      (ofPushes pushed).translate 8 = .ok (b, 6) ∧ (ofPushes pushed).translate 10 = .ok (a, 6) := by
  intro a b pushed
  have h : pushed.Pairwise (·.start ≤ ·.start) := by decide
  refine ⟨h, ?_, ?_, ?_⟩
  · obtain ⟨i, hi, hrun⟩ := (translate_ofPushes h 2).2.2.2 (by decide) (by decide)
    have hlast : lastFirst? pushed = some ⟨3, b, 1⟩ := by decide
    cases hlast.symm.trans hi
    exact hrun
  · exact (translate_ofPushes h 8).2.2.1 ⟨3, b, 1⟩ (by decide)
  · exact (translate_ofPushes h 10).2.2.1 ⟨9, a, 5⟩ (by decide)

end ScriptFront.LineMap
