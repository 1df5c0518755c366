import ScriptFront.Proofs.Pool.Capacity
import ScriptFront.Proofs.Pool.Refinement
import Mathlib.Algebra.Order.Floor.Div

/-! The free list and the counters of a pool tell the truth about its slots. Main statement: this is
so after every run that has room for its objects, pages come only to a pool without an empty slot,
and those without objects go when it shrinks. -/
namespace ScriptFront

variable {α : Type}

namespace Page

/-- What the page has at each offset. -/
def slotList (p : Page α) : List (Option (Slot α)) :=
  p.slots.elim (List.replicate pageSize none) fun slots => slots.toList.map some

def isFree (s : Option (Slot α)) : Bool := s.any (·.object.isNone)

@[simp] theorem length_slotList (p : Page α) : p.slotList.length = pageSize := by
  unfold slotList
  cases p.slots <;> simp

theorem getElem?_slotList (p : Page α) (o : Fin pageSize) :
    p.slotList[o.val]? = some (p.slot? o) := by
  unfold slotList slot?
  cases p.slots <;> simp

theorem isFree_eq_true_iff {s : Option (Slot α)} : isFree s = true ↔ ∃ g, s = some ⟨g, none⟩ := by
  rcases s with _ | ⟨g, _ | x⟩ <;> simp [isFree]

/-- A slot of a page holds an object or is free. -/
theorem countP_slotList (p : Page α) :
    p.slotList.countP isFree + p.occupied = if p.isResident then pageSize else 0 := by
  unfold slotList occupied isResident
  cases p.slots with
  | none => simp [isFree, List.countP_replicate]
  | some slots =>
    have hsplit := slots.toList.length_eq_countP_add_countP (·.object.isSome)
    simp only [Vector.length_toList, Bool.not_eq_true, Option.isSome_eq_false_iff,
      Bool.decide_eq_true] at hsplit
    have hfree : (slots.toList.map some).countP isFree =
        slots.toList.countP (·.object.isNone) := by
      rw [List.countP_map]
      rfl
    rw [Option.elim_some, Option.elim_some, hfree, ← Vector.countP_toList, Nat.add_comm]
    exact hsplit.symm

end Page

namespace Pool

variable {p q : Pool α}

/-- What the pool has at each index. -/
def slotList (p : Pool α) : List (Option (Slot α)) := p.pages.flatMap Page.slotList

/-- Blocks of one length are found by the quotient of an index, and their entries by the remainder. -/
theorem getElem?_flatMap {β γ : Type} {f : β → List γ} {n : Nat} (hn : 0 < n)
    (hf : ∀ x, (f x).length = n) (xs : List β) (i : Nat) :
    (xs.flatMap f)[i]? = xs[i / n]?.bind fun x => (f x)[i % n]? := by
  induction xs generalizing i with
  | nil => simp
  | cons x xs ih =>
    rw [List.flatMap_cons, List.getElem?_append, hf]
    split
    · next hi => rw [Nat.div_eq_of_lt hi, Nat.mod_eq_of_lt hi, List.getElem?_cons_zero, Option.bind_some]
    · next hi =>
      have hle : n ≤ i := Nat.le_of_not_lt hi
      rw [ih, Nat.div_eq_sub_div hn hle, Nat.mod_eq_sub_mod hle, List.getElem?_cons_succ]

theorem any_slotList (p : Pool α) (i : Nat) :
    p.slotList[i]?.any Page.isFree = true ↔ ∃ g, p.slot? i = some ⟨g, none⟩ := by
  have hblock := getElem?_flatMap (by decide) Page.length_slotList p.pages i
  rw [slotList, hblock, ← Page.isFree_eq_true_iff, slot?]
  change (p.pages[pageOf i]?.bind fun page => page.slotList[(offsetOf i).val]?).any _ = true ↔ _
  cases p.pages[pageOf i]? with
  | none => simp [Page.isFree]
  | some page => rw [Option.bind_some, Option.bind_some, Page.getElem?_slotList, Option.any_some]

/-- All slots are numbered. -/
def Numbered (p : Pool α) : Prop := ∀ i s, p.slot? i = some s → i < maxLive

theorem numbered_empty : (empty : Pool α).Numbered := by simp [Numbered, slot?, empty]

theorem Numbered.mem_free_iff (hn : p.Numbered) (w : p.WellFormed) (i : Nat) :
    i ∈ p.free ↔ ∃ g, p.slot? i = some ⟨g, none⟩ := by
  rw [w.mem_free_iff]
  exact and_iff_right_of_imp fun ⟨g, hg⟩ => hn i _ hg

theorem Numbered.length_free (hn : p.Numbered) (w : p.WellFormed) :
    p.free.length = p.slotList.countP Page.isFree := by
  rw [← List.toFinset_card_of_nodup w.nodup_free]
  refine card_eq_countP _ _ fun i => ?_
  rw [List.mem_toFinset, hn.mem_free_iff w, any_slotList]

theorem Counts.map_live (hc : p.Counts) :
    p.pages.map Page.live = p.pages.map Page.occupied := List.map_congr_left hc

/-- Each slot of these pages holds an object or is free. -/
theorem occupied_add_free (pages : List (Page α)) :
    (pages.map Page.occupied).sum + (pages.flatMap Page.slotList).countP Page.isFree =
      pages.countP Page.isResident * pageSize := by
  induction pages with
  | nil => simp
  | cons page pages ih =>
    have hpage := page.countP_slotList
    rw [List.map_cons, List.sum_cons, List.flatMap_cons, List.countP_append]
    by_cases hr : page.isResident = true
    · rw [if_pos hr] at hpage
      rw [List.countP_cons_of_pos hr, Nat.add_mul, Nat.one_mul]
      omega
    · rw [if_neg hr] at hpage
      rw [List.countP_cons_of_neg hr]
      omega

theorem Numbered.live_add_free (hn : p.Numbered) (w : p.WellFormed) (z : p.Sized) :
    p.live + p.free.length = p.capacity := by
  rw [show p.live = _ from z, w.counts.map_live, hn.length_free w]
  exact occupied_add_free p.pages

/-- What an operation makes of a pool that has room for it. -/
inductive Change (p : Pool α) : Pool α → Prop
  | same : Change p p
  | setObject {h : Handle} {x : Counted α} (hx : p.find? h = some x) (y : Counted α) :
      Change p (p.setObject h y)
  | destroy {h : Handle} {x : Counted α} (hx : p.find? h = some x) : Change p (p.destroy h)
  | create {v : α} {h : Handle} {q : Pool α} (hq : p.create v = (.ok h, q)) : Change p q
  | shrink : Change p p.shrink.2

/-- Only a pool without a free slot has no room. -/
theorem change_step (w : p.WellFormed) (op : PoolOp α) :
    p.Change (p.step op).2 ∨ (p.step op).1 = .failed .exhausted ∧ p.free = [] := by
  have hdead {h : Handle} (hop : op.needs? = some h) (hx : p.find? h = none) :
      p.Change (p.step op).2 := by
    rw [step_of_dead hop hx]
    exact .same
  cases op with
  | create value =>
    rcases create_cases w value with ⟨he, hfree, -⟩ | ⟨i, g, p', q, hq, -⟩
    · exact .inr ⟨by simp only [step, he], hfree⟩
    · refine .inl ?_
      simp only [step, hq]
      exact .create hq
  | retain h =>
    refine .inl ?_
    rcases hx : p.find? h with _ | x
    · exact hdead rfl hx
    · rw [step, retain_of_find? hx]
      split_ifs
      · exact .setObject hx _
      · exact .same
  | release h =>
    refine .inl ?_
    rcases hx : p.find? h with _ | x
    · exact hdead rfl hx
    · rw [step, release_of_find? hx]
      split_ifs
      · exact .setObject hx _
      · exact .destroy hx
  | get h | refs h =>
    refine .inl ?_
    rcases hx : p.find? h with _ | x
    · exact hdead rfl hx
    · simp only [step, Pool.get, Pool.refs, find_of_find? hx]
      exact .same
  | set h value =>
    refine .inl ?_
    rcases hx : p.find? h with _ | x
    · exact hdead rfl hx
    · simp only [step, Pool.set, find_of_find? hx]
      exact .setObject hx _
  | contains h => exact .inl .same
  | shrink => exact .inl .shrink

namespace Change

theorem wellFormed (c : p.Change q) (w : p.WellFormed) : q.WellFormed := by
  cases c with
  | same => exact w
  | setObject hx y => exact (replaces_setObject hx y).wellFormed_same w (by simp) (by simp) rfl
  | destroy hx => exact (replaces_destroy hx).wellFormed_empty w (by simp) rfl rfl
  | @create v h q hq =>
    obtain ⟨i, g, p', -, -, -, w'⟩ := create_of_ok w hq
    exact w'
  | shrink => exact wellFormed_shrink w

theorem numbered (c : p.Change q) (w : p.WellFormed) (hn : p.Numbered) : q.Numbered := by
  have hreplaced {p' q' : Pool α} {i : Nat} {s t : Slot α} (r : Replaces p' q' i s t)
      (hn' : p'.Numbered) : q'.Numbered := by
    intro j u hj
    rw [r.slot] at hj
    split_ifs at hj with hij
    · exact hij ▸ hn' i s r.before
    · exact hn' j u hj
  cases c with
  | same => exact hn
  | setObject hx y => exact hreplaced (replaces_setObject hx y) hn
  | destroy hx => exact hreplaced (replaces_destroy hx) hn
  | create hq =>
    obtain ⟨i, g, p', -, hp', r, -⟩ := create_of_ok w hq
    refine hreplaced r ?_
    rcases hp' with rfl | ⟨-, gr⟩
    · exact hn
    · intro j u hj
      rw [gr.slot] at hj
      split_ifs at hj with hk
      · exact lt_maxLive_iff.mpr (hk ▸ gr.numbered)
      · exact hn j u hj
  | shrink =>
    intro j u hj
    rw [slot?_shrink] at hj
    split_ifs at hj
    exact hn j u hj

theorem sized (c : p.Change q) (w : p.WellFormed) (z : p.Sized) : q.Sized := by
  cases c with
  | same => exact z
  | setObject hx y => exact z.setObject _ y
  | destroy hx => exact (z.destroy w.counts hx).1
  | create hq => exact (z.create hq).1
  | shrink => exact z.shrink

end Change

/-! Pages come and go. -/

/-- The pages that have slots. -/
def resident (p : Pool α) : Finset Nat := (Finset.range p.pages.length).filter (p.hasPage ·)

theorem mem_resident {k : Nat} : k ∈ p.resident ↔ p.hasPage k = true := by
  unfold resident hasPage
  rw [Finset.mem_filter, Finset.mem_range]
  refine and_iff_right_of_imp fun h => ?_
  obtain ⟨page, hpage, -⟩ := (Option.any_eq_true ..).mp h
  exact (List.getElem?_eq_some_iff.mp hpage).1

theorem card_resident (p : Pool α) : p.resident.card = p.residentPages :=
  card_eq_countP p.pages _ fun _ => mem_resident

theorem residentPages_le (h : ∀ k, q.hasPage k = true → p.hasPage k = true) :
    q.residentPages ≤ p.residentPages := by
  rw [← card_resident, ← card_resident]
  exact Finset.card_le_card fun k hk => mem_resident.mpr (h k (mem_resident.mp hk))

theorem residentPages_le_succ {k : Nat} (h : ∀ l, q.hasPage l = (k == l || p.hasPage l)) :
    q.residentPages ≤ p.residentPages + 1 := by
  rw [← card_resident, ← card_resident]
  refine (Finset.card_le_card (t := insert k p.resident) fun l hl => ?_).trans
    (Finset.card_insert_le k _)
  rw [mem_resident, h, Bool.or_eq_true, beq_iff_eq] at hl
  exact Finset.mem_insert.mpr (hl.imp Eq.symm mem_resident.mpr)

/-- A new object needs a page only if no slot is free. -/
theorem create_pages (w : p.WellFormed) {v : α} {h : Handle} (hq : p.create v = (.ok h, q)) :
    (∀ k, q.hasPage k = p.hasPage k) ∨
      p.free = [] ∧ ∃ k, ∀ l, q.hasPage l = (k == l || p.hasPage l) := by
  obtain ⟨i, g, p', -, hp', r, -⟩ := create_of_ok w hq
  rcases hp' with rfl | ⟨hfree, gr⟩
  · exact .inl r.page
  · exact .inr ⟨hfree, pageOf i, fun l => (r.page l).trans (gr.page l)⟩

namespace Change

/-- Pages come only to a pool without a free slot, one at a time and for one more object. -/
theorem pages (c : p.Change q) (w : p.WellFormed) (z : p.Sized) :
    (∀ k, q.hasPage k = true → p.hasPage k = true) ∨
      p.free = [] ∧ q.live = p.live + 1 ∧ ∃ k, ∀ l, q.hasPage l = (k == l || p.hasPage l) := by
  cases c with
  | same => exact .inl fun _ hk => hk
  | setObject hx y => exact .inl fun k hk => (replaces_setObject hx y).page k ▸ hk
  | destroy hx => exact .inl fun k hk => (replaces_destroy hx).page k ▸ hk
  | create hq =>
    rcases create_pages w hq with hpage | ⟨hfree, hpage⟩
    · exact .inl fun k hk => hpage k ▸ hk
    · exact .inr ⟨hfree, (z.create hq).2, hpage⟩
  | shrink =>
    refine .inl fun k hk => ?_
    rw [hasPage_shrink] at hk
    unfold hasPage
    obtain ⟨page, hpage, hboth⟩ := (Option.any_eq_true ..).mp hk
    rw [hpage]
    exact (Bool.and_eq_true_iff.mp hboth).1

theorem free_eq_nil (c : p.Change q) (w : p.WellFormed) (z : p.Sized) {k : Nat}
    (hk : p.hasPage k = false) (hk' : q.hasPage k = true) : p.free = [] := by
  rcases c.pages w z with hpage | ⟨hfree, -⟩
  · rw [hpage k hk'] at hk
    cases hk
  · exact hfree

theorem capacity_le (c : p.Change q) (w : p.WellFormed) (z : p.Sized) (hn : p.Numbered) :
    q.capacity ≤ max p.capacity (pageSize * (q.live ⌈/⌉ pageSize)) := by
  rcases c.pages w z with hpage | ⟨hfree, hlive, k, hpage⟩
  · exact (Nat.mul_le_mul_right _ (residentPages_le hpage)).trans (Nat.le_max_left ..)
  · have hfull : p.live = p.residentPages * pageSize := by
      have hslots := hn.live_add_free w z
      rwa [hfree] at hslots
    have hpages := residentPages_le_succ hpage
    have hceil : q.live ⌈/⌉ pageSize = p.residentPages + 1 := by
      rw [hlive, hfull, Nat.ceilDiv_eq_add_pred_div]
      unfold pageSize
      omega
    rw [hceil, Nat.mul_comm]
    exact (Nat.mul_le_mul_right _ hpages).trans (Nat.le_max_right ..)

end Change

/-- The greatest number of objects that the pool has in the course of a run. -/
def peak (p : Pool α) : List (PoolOp α) → Nat
  | [] => p.live
  | op :: ops => max p.live ((p.step op).2.peak ops)

theorem live_le_peak (p : Pool α) (ops : List (PoolOp α)) : p.live ≤ p.peak ops := by
  cases ops with
  | nil => exact Nat.le_refl _
  | cons op ops => exact Nat.le_max_left ..

/-- The run has room for all its objects. -/
def HasRoom (p : Pool α) (ops : List (PoolOp α)) : Prop :=
  ∀ e ∈ (p.run ops).1, e.2 ≠ .failed .exhausted

theorem HasRoom.change {op : PoolOp α} {ops : List (PoolOp α)} (h : p.HasRoom (op :: ops))
    (w : p.WellFormed) : p.Change (p.step op).2 ∧ (p.step op).2.HasRoom ops := by
  obtain ⟨hfirst, hrest⟩ := List.forall_mem_cons.mp h
  exact ⟨(change_step w op).resolve_right fun he => hfirst he.1, hrest⟩

theorem run_kept (w : p.WellFormed) (z : p.Sized) (hn : p.Numbered) {ops : List (PoolOp α)}
    (h : p.HasRoom ops) :
    (p.run ops).2.WellFormed ∧ (p.run ops).2.Sized ∧ (p.run ops).2.Numbered := by
  induction ops generalizing p with
  | nil => exact ⟨w, z, hn⟩
  | cons op ops ih =>
    obtain ⟨c, hrest⟩ := h.change w
    exact ih (c.wellFormed w) (c.sized w z) (c.numbered w hn) hrest

theorem capacity_run_le (w : p.WellFormed) (z : p.Sized) (hn : p.Numbered)
    {ops : List (PoolOp α)} (h : p.HasRoom ops) :
    (p.run ops).2.capacity ≤ max p.capacity (pageSize * (p.peak ops ⌈/⌉ pageSize)) := by
  induction ops generalizing p with
  | nil => exact Nat.le_max_left ..
  | cons op ops ih =>
    obtain ⟨c, hroom⟩ := h.change w
    have hrest := ih (c.wellFormed w) (c.sized w z) (c.numbered w hn) hroom
    have hmono {m n : Nat} (h : m ≤ n) : pageSize * (m ⌈/⌉ pageSize) ≤ pageSize * (n ⌈/⌉ pageSize) :=
      Nat.mul_le_mul_left _ ((gc_mul_ceilDiv (by decide)).monotone_l h)
    have hlive := (p.step op).2.live_le_peak ops
    calc ((p.step op).2.run ops).2.capacity
        ≤ max (p.step op).2.capacity (pageSize * ((p.step op).2.peak ops ⌈/⌉ pageSize)) := hrest
      _ ≤ max p.capacity (pageSize * ((p.step op).2.peak ops ⌈/⌉ pageSize)) := by
        have := c.capacity_le w z hn
        have := hmono hlive
        omega
      _ ≤ max p.capacity (pageSize * (p.peak (op :: ops) ⌈/⌉ pageSize)) :=
        max_le_max_left _ (hmono (Nat.le_max_right ..))

/-- The free list and the counters agree with the slots. -/
structure Exact (p : Pool α) : Prop where
  nodup_free : p.free.Nodup
  mem_free_iff : ∀ i, i ∈ p.free ↔ ∃ g, p.slot? i = some ⟨g, none⟩
  live_pages : p.live = (p.pages.map Page.live).sum
  live_slots : p.live = (p.pages.map Page.occupied).sum
  live_add_free : p.live + p.free.length = p.capacity
  live_reclaimed : ∀ page ∈ p.pages, page.isResident = false → page.live = 0

theorem WellFormed.exact (w : p.WellFormed) (z : p.Sized) (hn : p.Numbered) : p.Exact where
  nodup_free := w.nodup_free
  mem_free_iff := hn.mem_free_iff w
  live_pages := z
  live_slots := w.counts.map_live ▸ z
  live_add_free := hn.live_add_free w z
  live_reclaimed page hpage hr := by
    have hslots := page.countP_slotList
    rw [hr, if_neg (by decide)] at hslots
    rw [w.counts page hpage]
    omega

/-- Shrinking takes the slots of the pages without objects, and counts them. -/
theorem WellFormed.shrink_pages (w : p.WellFormed) :
    (∀ page ∈ p.shrink.2.pages, page.isResident = true → 0 < page.occupied) ∧
      p.shrink.1 = p.pages.countP fun page => page.isResident && page.occupied == 0 := by
  constructor
  · intro page hpage hr
    rw [← counts_shrink w.counts page hpage]
    obtain ⟨before, -, rfl⟩ := List.mem_map.mp hpage
    rw [Page.isResident_reclaim, Bool.and_eq_true, bne_iff_ne] at hr
    rw [Page.live_reclaim]
    exact Nat.pos_of_ne_zero hr.2
  · exact List.countP_congr fun page hpage => by rw [w.counts page hpage]

/-- After every run that has room for its objects the free list has the empty slots, each once, and
the counters are the numbers that they stand for. A page gets slots only when there are as many
objects as slots, so there are no more slots than the pages that the greatest number of objects ever
needed. Shrinking leaves slots to the pages with objects, and tells how many pages lost theirs. -/
theorem run_exact {ops : List (PoolOp α)} (hroom : (empty : Pool α).HasRoom ops) :
    let p := ((empty : Pool α).run ops).2
    p.Exact ∧
      (∀ op k, p.hasPage k = false → (p.step op).2.hasPage k = true → p.live = p.capacity) ∧
      p.capacity ≤ pageSize * ((empty : Pool α).peak ops ⌈/⌉ pageSize) ∧
      (∀ page ∈ p.shrink.2.pages, page.isResident = true → 0 < page.occupied) ∧
      p.shrink.1 = p.pages.countP fun page => page.isResident && page.occupied == 0 := by
  intro p
  have w₀ : (empty : Pool α).WellFormed := wellFormed_empty
  have z₀ : (empty : Pool α).Sized := sized_empty
  have hn₀ : (empty : Pool α).Numbered := numbered_empty
  obtain ⟨w, z, hn⟩ := run_kept w₀ z₀ hn₀ hroom
  have hcapacity := capacity_run_le w₀ z₀ hn₀ hroom
  have hempty : (empty : Pool α).capacity = 0 := by simp [capacity, residentPages, empty]
  rw [hempty, Nat.zero_max] at hcapacity
  refine ⟨w.exact z hn, fun op k hk hk' => ?_, hcapacity, w.shrink_pages⟩
  have hfree : p.free = [] := by
    rcases change_step w op with c | ⟨-, hfree⟩
    · exact c.free_eq_nil w z hk hk'
    · exact hfree
  have hslots := hn.live_add_free w z
  rwa [hfree] at hslots

/-- A page is emptied, given back and revived for two objects. -/
theorem run_exact_revived :
    let ops : List (PoolOp Nat) := [.create 7, .release ⟨0, 0⟩, .shrink, .create 8, .create 9]
    let p := ((empty : Pool Nat).run ops).2
    (empty : Pool Nat).HasRoom ops ∧ p.Exact ∧ p.live = 2 ∧ p.free.length = 254 ∧
      p.capacity ≤ pageSize := by
  intro ops p
  have hroom : (empty : Pool Nat).HasRoom ops := by
    show ∀ e ∈ ((empty : Pool Nat).run ops).1, e.2 ≠ .failed .exhausted
    decide +kernel
  obtain ⟨hexact, -, hcapacity, -⟩ := run_exact hroom
  exact ⟨hroom, hexact, by decide +kernel, by decide +kernel, hcapacity.trans (by decide +kernel)⟩

end Pool
end ScriptFront
