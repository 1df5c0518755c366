import ScriptFront.LineMap
import Mathlib.Data.List.Basic
import Mathlib.Data.List.Find

/-! What a line map means: a line is in the interval that was pushed last of those that do not start
after it. The search by halving finds that interval, as intervals are pushed in the order of their
starts. -/
namespace ScriptFront

/-- A line of a file. -/
structure FileLine where
  file : SourceFile
  index : Nat
  deriving DecidableEq, Repr

namespace LineMap

variable {m : LineMap}

def at? (m : LineMap) (line : Nat) : Option LineInterval :=
  m.intervals.toList.reverse.find? (·.start ≤ line)

def origin? (m : LineMap) (line : Nat) : Option FileLine :=
  (m.at? line).map fun i => ⟨i.file, line - i.start + i.offset⟩

def Sorted (m : LineMap) : Prop := m.intervals.toList.Pairwise (·.start < ·.start)

theorem sorted_empty : empty.Sorted := List.Pairwise.nil

/-- An interval comes to the end, or takes the place of the last one if that starts with it. -/
theorem push_cases (m : LineMap) (i : LineInterval) :
    ((∀ last ∈ m.intervals.toList.getLast?, last.start ≠ i.start) ∧
        (m.push i).intervals.toList = m.intervals.toList ++ [i]) ∨
      ∃ before last, m.intervals.toList = before ++ [last] ∧ last.start = i.start ∧
        (m.push i).intervals.toList = before ++ [i] := by
  obtain ⟨⟨l⟩⟩ := m
  unfold push
  rcases List.eq_nil_or_concat' l with rfl | ⟨before, last, rfl⟩
  · exact .inl ⟨by simp, by simp⟩
  · by_cases h : last.start = i.start
    · exact .inr ⟨before, last, rfl, h, by simp [h]⟩
    · exact .inl ⟨by simp [h], by simp [h]⟩

theorem at?_push (m : LineMap) (i : LineInterval) (line : Nat) :
    (m.push i).at? line = if i.start ≤ line then some i else m.at? line := by
  unfold at?
  rcases push_cases m i with ⟨-, hpush⟩ | ⟨before, last, hm, hlast, hpush⟩
  · rw [hpush, List.reverse_concat, List.find?_cons]
    by_cases hi : i.start ≤ line <;> simp [hi]
  · rw [hpush, hm, List.reverse_concat, List.reverse_concat, List.find?_cons, List.find?_cons, hlast]
    by_cases hi : i.start ≤ line <;> simp [hi]

theorem Sorted.push (h : m.Sorted) {i : LineInterval}
    (hi : ∀ j ∈ m.intervals.toList, j.start ≤ i.start) : (m.push i).Sorted := by
  unfold Sorted at h ⊢
  rcases push_cases m i with ⟨hne, hpush⟩ | ⟨before, last, hm, hlast, hpush⟩
  · rw [hpush, List.pairwise_append]
    refine ⟨h, List.pairwise_singleton .., fun j hj k hk => ?_⟩
    rw [List.mem_singleton.mp hk]
    rcases List.eq_nil_or_concat' m.intervals.toList with hnil | ⟨before, last, hm⟩
    · rw [hnil] at hj
      cases hj
    · rw [hm] at h hi hj hne
      have hlast := hi last List.mem_concat_self
      have hlt : last.start ≠ i.start := hne last (by simp)
      rcases List.mem_append.mp hj with hj | hj
      · have := (List.pairwise_append.mp h).2.2 j hj last List.mem_cons_self
        omega
      · rw [List.mem_singleton.mp hj]
        omega
  · rw [hm, List.pairwise_append] at h
    rw [hpush, List.pairwise_append]
    refine ⟨h.1, List.pairwise_singleton .., fun j hj k hk => ?_⟩
    rw [List.mem_singleton.mp hk, ← hlast]
    exact h.2.2 j hj last List.mem_cons_self

theorem mem_push {i j : LineInterval} (h : j ∈ (m.push i).intervals.toList) :
    j ∈ m.intervals.toList ∨ j = i := by
  rcases push_cases m i with ⟨-, hpush⟩ | ⟨before, last, hm, -, hpush⟩
  · rw [hpush] at h
    simpa using h
  · rw [hpush] at h
    rw [hm]
    rcases List.mem_append.mp h with h | h
    · exact .inl (List.mem_append_left _ h)
    · exact .inr (List.mem_singleton.mp h)

/-- A new interval decides about the lines from its start on, and about no others. -/
theorem origin?_push_self (m : LineMap) (i : LineInterval) :
    (m.push i).origin? i.start = some ⟨i.file, i.offset⟩ := by
  simp [origin?, at?_push]

theorem origin?_push_of_lt {i : LineInterval} {line : Nat} (h : line < i.start) :
    (m.push i).origin? line = m.origin? line := by
  rw [origin?, at?_push, if_neg (by omega), origin?]

/-- Where no interval starts, the next line of the text is the next line of the file. -/
theorem origin?_succ {line : Nat} {o : FileLine} (hstart : ∀ i ∈ m.intervals.toList, i.start ≤ line)
    (ho : m.origin? line = some o) : m.origin? (line + 1) = some ⟨o.file, o.index + 1⟩ := by
  have hat : m.at? (line + 1) = m.at? line := by
    refine List.find?_congr fun i hi => ?_
    have := hstart i (List.mem_reverse.mp hi)
    simp only [decide_eq_decide]
    omega
  obtain ⟨i, hi, rfl⟩ := Option.map_eq_some_iff.mp ho
  have hle := hstart i (List.mem_reverse.mp (List.mem_of_find?_eq_some hi))
  rw [origin?, hat, hi]
  simp only [Option.map_some, Option.some.injEq, FileLine.mk.injEq, true_and]
  omega

/-- The intervals that do not start after a line come before the others. -/
theorem exists_eq_append {l : List LineInterval} (h : l.Pairwise (·.start < ·.start)) (line : Nat) :
    ∃ before after, l = before ++ after ∧ (∀ i ∈ before, i.start ≤ line) ∧
      ∀ i ∈ after, line < i.start := by
  induction l with
  | nil => exact ⟨[], [], rfl, by simp, by simp⟩
  | cons i l ih =>
    obtain ⟨hlt, hl⟩ := List.pairwise_cons.mp h
    by_cases hi : i.start ≤ line
    · obtain ⟨before, after, rfl, hb, ha⟩ := ih hl
      exact ⟨i :: before, after, rfl, List.forall_mem_cons.mpr ⟨hi, hb⟩, ha⟩
    · refine ⟨[], i :: l, rfl, by simp, List.forall_mem_cons.mpr ⟨by omega, fun j hj => ?_⟩⟩
      have := hlt j hj
      omega

theorem boundary_startsBy {before after : List LineInterval} {line : Nat}
    (hb : ∀ i ∈ before, i.start ≤ line) (ha : ∀ i ∈ after, line < i.start) :
    boundary (startsBy ⟨⟨before ++ after⟩⟩ line) 0 (before ++ after).length = before.length := by
  refine boundary_eq (Nat.zero_le _) (by simp) fun k _ hk => ?_
  have hget : startsBy ⟨⟨before ++ after⟩⟩ line k =
      ((before ++ after)[k]?).any (·.start ≤ line) := by simp [startsBy]
  by_cases hkb : k < before.length
  · have := hb _ (List.getElem_mem hkb)
    simp [hget, List.getElem?_append_left hkb, hkb, this]
  · rw [hget, List.getElem?_append_right (by omega)]
    have hka : k - before.length < after.length := by simp at hk; omega
    have := ha _ (List.getElem_mem hka)
    simp [hka, hkb, this]

theorem find?_eq_some_of_at? (h : m.Sorted) {line : Nat} {i : LineInterval}
    (hi : m.at? line = some i) : m.find? line = some i := by
  obtain ⟨⟨l⟩⟩ := m
  obtain ⟨before, after, rfl, hb, ha⟩ := exists_eq_append h line
  have hlast : before.getLast? = some i := by
    have hnone : after.reverse.find? (·.start ≤ line) = none := by
      rw [List.find?_eq_none]
      intro j hj
      simpa using ha j (List.mem_reverse.mp hj)
    rw [at?, List.reverse_append, List.find?_append, hnone, Option.none_or] at hi
    rcases List.eq_nil_or_concat' before with rfl | ⟨init, last, rfl⟩
    · cases hi
    · have : last.start ≤ line := hb last List.mem_concat_self
      simpa [this] using hi
  have hfind : find? ⟨⟨before ++ after⟩⟩ line = (before ++ after)[before.length - 1]? := by
    rw [find?, size, List.size_toArray, boundary_startsBy hb ha]
    simp
  have hpos : before ≠ [] := by
    rintro rfl
    cases hlast
  rw [hfind, List.getElem?_append_left (Nat.sub_lt (List.length_pos_iff.mpr hpos) Nat.one_pos),
    ← List.getLast?_eq_getElem?, hlast]

/-- A line with a place is translated to that place. Numbers above the greatest one are given as that
one. -/
theorem translate_of_origin? (h : m.Sorted) {line : Nat} {o : FileLine}
    (ho : m.origin? line = some o) : m.translate line = .ok (o.file, min o.index maxLine) := by
  obtain ⟨i, hi, rfl⟩ := Option.map_eq_some_iff.mp ho
  rw [translate, find?_eq_some_of_at? h hi]

end LineMap
end ScriptFront
