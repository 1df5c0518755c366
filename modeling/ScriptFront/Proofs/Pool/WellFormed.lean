import ScriptFront.Proofs.Pool.Slots

/-! What every operation of a pool keeps: the free list has the empty slots that are numbered, each
once, and a page knows how many of its slots hold an object. Each operation has one lemma that says
all it does. -/
namespace ScriptFront

variable {α : Type}

namespace Pool

/-- The most objects that a pool can have: the slots from there on are not numbered. -/
def maxLive : Nat := maxSlots / pageSize * pageSize

theorem lt_maxLive_iff {i : Nat} : i < maxLive ↔ (pageOf i + 1) * pageSize ≤ maxSlots := by
  unfold maxLive pageOf maxSlots pageSize
  omega

structure WellFormed (p : Pool α) : Prop where
  nodup_free : p.free.Nodup
  mem_free_iff : ∀ i, i ∈ p.free ↔ i < maxLive ∧ ∃ g, p.slot? i = some ⟨g, none⟩
  object_lt : ∀ i g x, p.slot? i = some ⟨g, some x⟩ → i < maxLive
  counts : p.Counts

/-- All slots of the pages that can be numbered hold an object. -/
def Full (p : Pool α) : Prop :=
  ∀ i, i + pageSize ≤ maxSlots → ∃ g x, p.slot? i = some ⟨g, some x⟩

theorem wellFormed_empty : (empty : Pool α).WellFormed :=
  ⟨List.nodup_nil, by simp [empty, slot?], by simp [empty, slot?], by simp [Counts, empty]⟩

theorem WellFormed.lt_of_object {p : Pool α} (w : p.WellFormed) {i : Nat} {s : Slot α}
    (hi : p.slot? i = some s) (hs : s.object ≠ none) : i < maxLive := by
  obtain ⟨g, _ | x⟩ := s
  · exact absurd rfl hs
  · exact w.object_lt i g x hi

/-- Only the one slot can get an object. -/
theorem Replaces.object_lt {p q : Pool α} {i : Nat} {s t : Slot α} (r : Replaces p q i s t)
    (w : p.WellFormed) (hi : i < maxLive) :
    ∀ j g x, q.slot? j = some ⟨g, some x⟩ → j < maxLive := by
  intro j g x hj
  rw [r.slot] at hj
  split_ifs at hj with hij
  · exact hij ▸ hi
  · exact w.object_lt j g x hj

/-- An object in the place of an object leaves the free list as it is. -/
theorem Replaces.wellFormed_same {p q : Pool α} {i : Nat} {s t : Slot α} (r : Replaces p q i s t)
    (w : p.WellFormed) (hs : s.object ≠ none) (ht : t.object ≠ none) (hf : q.free = p.free) :
    q.WellFormed := by
  refine ⟨hf ▸ w.nodup_free, fun j => ?_, r.object_lt w (w.lt_of_object r.before hs),
    r.counts w.counts⟩
  rw [hf, w.mem_free_iff, r.slot]
  by_cases hi : i = j
  · subst hi
    rw [r.before]
    refine and_congr_right fun _ => ⟨?_, ?_⟩
    · rintro ⟨g, hg⟩
      exact absurd (congrArg Slot.object (Option.some.inj hg)) hs
    · rintro ⟨g, hg⟩
      rw [if_pos rfl] at hg
      exact absurd (congrArg Slot.object (Option.some.inj hg)) ht
  · rw [if_neg hi]

theorem Replaces.wellFormed_fill {p q : Pool α} {i : Nat} {s t : Slot α} (r : Replaces p q i s t)
    (w : p.WellFormed) (ht : t.object ≠ none) (hf : p.free = i :: q.free) : q.WellFormed := by
  have hnd := List.nodup_cons.mp (hf ▸ w.nodup_free)
  have hlt : i < maxLive := ((w.mem_free_iff i).mp (by simp [hf])).1
  refine ⟨hnd.2, fun j => ?_, r.object_lt w hlt, r.counts w.counts⟩
  have hj := w.mem_free_iff j
  rw [hf, List.mem_cons] at hj
  rw [r.slot]
  by_cases hi : i = j
  · subst hi
    rw [if_pos rfl]
    refine ⟨fun h => absurd h hnd.1, ?_⟩
    rintro ⟨-, g, hg⟩
    exact absurd (congrArg Slot.object (Option.some.inj hg)) ht
  · rw [if_neg hi, ← hj]
    simp [Ne.symm hi]

theorem Replaces.wellFormed_empty {p q : Pool α} {i : Nat} {s t : Slot α} (r : Replaces p q i s t)
    (w : p.WellFormed) (hs : s.object ≠ none) (ht : t.object = none) (hf : q.free = i :: p.free) :
    q.WellFormed := by
  have hlt := w.lt_of_object r.before hs
  have hi : i ∉ p.free := by
    rw [w.mem_free_iff, r.before]
    rintro ⟨-, g, hg⟩
    exact hs (congrArg Slot.object (Option.some.inj hg))
  refine ⟨hf ▸ List.nodup_cons.mpr ⟨hi, w.nodup_free⟩, fun j => ?_, r.object_lt w hlt,
    r.counts w.counts⟩
  rw [hf, List.mem_cons, r.slot, w.mem_free_iff]
  by_cases hj : i = j
  · subst hj
    refine ⟨fun _ => ⟨hlt, t.generation, ?_⟩, fun _ => Or.inl rfl⟩
    rw [if_pos rfl, ← ht]
  · rw [if_neg hj]
    simp [Ne.symm hj]

theorem mem_range'_pageSize {k i : Nat} :
    i ∈ List.range' (k * pageSize) pageSize ↔ k = pageOf i := by
  rw [List.mem_range'_1, pageOf, eq_comm, Nat.div_eq_iff (by decide)]
  unfold pageSize
  omega

/-- No slot of the page that opens is free before. -/
theorem Opens.not_free {p q : Pool α} {k : Nat} (o : Opens p q k) (w : p.WellFormed) {i : Nat}
    (hi : i ∈ p.free) : k ≠ pageOf i := by
  rintro rfl
  obtain ⟨-, g, hg⟩ := (w.mem_free_iff i).mp hi
  have hpage := isSome_slot? p i
  rw [hg, o.before] at hpage
  simp at hpage

theorem Opens.object_lt {p q : Pool α} {k : Nat} (o : Opens p q k) (w : p.WellFormed) :
    ∀ i g x, q.slot? i = some ⟨g, some x⟩ → i < maxLive := by
  intro i g x hi
  rw [o.slot] at hi
  split_ifs at hi
  · cases hi
  · exact w.object_lt i g x hi

theorem Grows.wellFormed {p q : Pool α} {k : Nat} (g : Grows p q k) (w : p.WellFormed) :
    q.WellFormed := by
  refine ⟨?_, fun i => ?_, g.object_lt w, g.counts w.counts⟩
  · rw [g.free, List.nodup_append]
    refine ⟨List.nodup_range', w.nodup_free, ?_⟩
    rintro i hi j hj rfl
    exact g.not_free w hj (mem_range'_pageSize.mp hi)
  · rw [g.free, List.mem_append, mem_range'_pageSize, g.slot, w.mem_free_iff]
    by_cases hi : k = pageOf i
    · have hlt : i < maxLive := lt_maxLive_iff.mpr (hi ▸ g.numbered)
      simp [hi, hlt]
    · simp [hi]

theorem Overflows.wellFormed {p q : Pool α} {k : Nat} (o : Overflows p q k) (w : p.WellFormed) :
    q.WellFormed := by
  refine ⟨o.free ▸ w.nodup_free, fun i => ?_, o.object_lt w, o.counts w.counts⟩
  rw [o.free, w.mem_free_iff, o.slot]
  by_cases hi : k = pageOf i
  · have hnot : ¬i < maxLive := mt lt_maxLive_iff.mp (Nat.not_le.mpr (hi ▸ o.no_room))
    simp [hnot]
  · rw [if_neg hi]

theorem find_of_find?_eq_none {p : Pool α} {h : Handle} (hx : p.find? h = none) :
    p.find h = .error (.stale h) := by
  rw [find, hx]

theorem find_of_find? {p : Pool α} {h : Handle} {x : Counted α} (hx : p.find? h = some x) :
    p.find h = .ok x := by
  rw [find, hx]

theorem retain_of_find?_eq_none {p : Pool α} {h : Handle} (hx : p.find? h = none) :
    p.retain h = .error (.stale h) := by
  rw [retain, find_of_find?_eq_none hx]; rfl

theorem retain_of_find? {p : Pool α} {h : Handle} {x : Counted α} (hx : p.find? h = some x) :
    p.retain h = if x.refs < maxRefs then
      .ok (x.refs + 1, p.setObject h { x with refs := x.refs + 1 })
    else .error (.countOverflow h.index) := by
  rw [retain, find_of_find? hx]; rfl

theorem release_of_find?_eq_none {p : Pool α} {h : Handle} (hx : p.find? h = none) :
    p.release h = .error (.stale h) := by
  rw [release, find_of_find?_eq_none hx]; rfl

theorem release_of_find? {p : Pool α} {h : Handle} {x : Counted α} (hx : p.find? h = some x) :
    p.release h = if 2 ≤ x.refs then
      .ok (none, p.setObject h { x with refs := x.refs - 1 })
    else .ok (some x.value, p.destroy h) := by
  rw [release, find_of_find? hx]; rfl

theorem replaces_setObject {p : Pool α} {h : Handle} {x : Counted α} (hx : p.find? h = some x)
    (y : Counted α) : Replaces p (p.setObject h y) h.index
      ⟨h.generation, some x⟩ ⟨h.generation, some y⟩ :=
  replaces_of_pages (f := id) (find?_eq_some_iff.mp hx) rfl fun _ => rfl

theorem replaces_destroy {p : Pool α} {h : Handle} {x : Counted α} (hx : p.find? h = some x) :
    Replaces p (p.destroy h) h.index ⟨h.generation, some x⟩ ⟨h.generation + 1, none⟩ :=
  replaces_of_pages (f := (· - 1)) (find?_eq_some_iff.mp hx) (List.modify_modify_eq ..) fun _ => rfl

theorem place_cases {p : Pool α} (w : p.WellFormed) {i : Nat} {free : List Nat}
    (hf : p.free = i :: free) (v : α) : ∃ g q, p.place v = (.ok ⟨i, g⟩, q) ∧
      Replaces p q i ⟨g, none⟩ ⟨g, some ⟨0, v⟩⟩ ∧ q.free = free ∧ q.WellFormed := by
  obtain ⟨-, g, hg⟩ := (w.mem_free_iff i).mp (by simp [hf])
  have r : Replaces p _ i ⟨g, none⟩ ⟨g, some ⟨0, v⟩⟩ :=
    replaces_of_pages (f := (· + 1)) (q := { (p.setObject ⟨i, g⟩ ⟨0, v⟩) with
      pages := (p.setObject ⟨i, g⟩ ⟨0, v⟩).setPageLive i (· + 1), free, live := p.live + 1 })
      hg (List.modify_modify_eq ..) fun _ => rfl
  refine ⟨g, _, ?_, r, rfl, r.wellFormed_fill w (by simp) hf⟩
  simp only [place, hf, hg]
  rfl

/-- A new object lies in a free slot, if need be of a page that gets slots for it. There is none
only if all slots that can be numbered hold an object. -/
theorem create_cases {p : Pool α} (w : p.WellFormed) (v : α) :
    (p.create v = (.error .exhausted, p.grow.2) ∧ p.free = [] ∧
      (∃ k, Overflows p p.grow.2 k) ∧ p.Full) ∨
    ∃ i g p' q, p.create v = (.ok ⟨i, g⟩, q) ∧ (p' = p ∨ p.free = [] ∧ Grows p p' (pageOf i)) ∧
      Replaces p' q i ⟨g, none⟩ ⟨g, some ⟨0, v⟩⟩ ∧ q.WellFormed := by
  unfold create
  cases hf : p.free with
  | cons i free =>
    obtain ⟨g, q, hq, r, -, hw⟩ := place_cases w hf v
    exact Or.inr ⟨i, g, p, q, by simpa using hq, Or.inl rfl, r, hw⟩
  | nil =>
    simp only [List.isEmpty_nil, if_true]
    rcases grow_cases p with ⟨q, k, he, o, hall⟩ | ⟨p', k, hp', gr⟩
    · rw [he]
      refine Or.inl ⟨rfl, trivial, ⟨k, o⟩, fun i hi => ?_⟩
      have hlt : pageOf i < k := by
        have hroom := o.no_room
        unfold maxSlots pageSize at *
        unfold pageOf pageSize
        omega
      obtain ⟨⟨g, object⟩, hs⟩ := Option.isSome_iff_exists.mp
        ((isSome_slot? p i).trans (hall _ hlt))
      cases object with
      | some x => exact ⟨g, x, hs⟩
      | none =>
        have hmax : i < maxLive := by
          unfold maxLive maxSlots pageSize at *
          omega
        exact absurd ((w.mem_free_iff i).mpr ⟨hmax, g, hs⟩) (by simp [hf])
    · have hfree : p'.free = k * pageSize :: List.range' (k * pageSize + 1) (pageSize - 1) := by
        rw [gr.free, hf, List.append_nil]
        exact List.range'_eq_cons_iff.mpr ⟨rfl, by decide, rfl⟩
      obtain ⟨g, q, hq, r, -, hw⟩ := place_cases (gr.wellFormed w) hfree v
      have hpage : pageOf (k * pageSize) = k := Nat.mul_div_cancel k (by decide)
      rw [← hpage] at gr
      exact Or.inr ⟨k * pageSize, g, p', q, by rw [hp', ← hq], Or.inr ⟨trivial, gr⟩, r, hw⟩

/-- What making an object does where there is room for it. -/
theorem create_of_ok {p q : Pool α} (w : p.WellFormed) {v : α} {h : Handle}
    (hq : p.create v = (.ok h, q)) :
    ∃ i g p', h = ⟨i, g⟩ ∧ (p' = p ∨ p.free = [] ∧ Grows p p' (pageOf i)) ∧
      Replaces p' q i ⟨g, none⟩ ⟨g, some ⟨0, v⟩⟩ ∧ q.WellFormed := by
  rcases create_cases w v with ⟨he, -⟩ | ⟨i, g, p', q', hq', hp', r, w'⟩
  · rw [he] at hq
    cases hq
  · rw [hq'] at hq
    cases hq
    exact ⟨i, g, p', rfl, hp', r, w'⟩

theorem wellFormed_shrink {p : Pool α} (w : p.WellFormed) : p.shrink.2.WellFormed := by
  have hobject (i : Nat) (g : UInt32) (x : Counted α) (hi : p.shrink.2.slot? i = some ⟨g, some x⟩) :
      i < maxLive := by
    rw [slot?_shrink] at hi
    split_ifs at hi
    exact w.object_lt i g x hi
  refine ⟨w.nodup_free.filter _, fun i => ?_, hobject, counts_shrink w.counts⟩
  have hpage : i ∈ p.shrink.2.free ↔ i ∈ p.free ∧ p.shrink.2.hasPage (pageOf i) = true :=
    List.mem_filter
  rw [hpage, w.mem_free_iff, hasPage_shrink, slot?_shrink, and_assoc]
  refine and_congr_right fun _ => ?_
  have hres := isSome_slot? p i
  unfold hasPage at hres
  cases hk : p.pages[pageOf i]? with
  | none => simp [slot?, hk]
  | some page =>
    rw [hk, Option.any_some] at hres
    by_cases hl : page.live = 0
    · simp [hl]
    · simp only [Option.any_some, beq_eq_false_iff_ne.mpr hl, hl, bne_iff_ne, ne_eq,
        not_false_eq_true, and_true, Bool.and_eq_true]
      constructor
      · rintro ⟨h, -⟩
        simpa using h
      · rintro ⟨g, hg⟩
        simp only [Bool.false_eq_true, if_false] at hg
        exact ⟨⟨g, hg⟩, by rw [← hres, hg]; rfl⟩

end Pool
end ScriptFront
