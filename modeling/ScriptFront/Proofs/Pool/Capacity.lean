import ScriptFront.Proofs.Pool.WellFormed
import Mathlib.Algebra.Order.BigOperators.Group.List
import Mathlib.Algebra.Order.Ring.Nat
import Mathlib.Algebra.Group.Action.Defs

/-! How many objects a pool can have. It refuses a new object exactly when it has so many, however its
pages and its free slots came about. -/
namespace ScriptFront

variable {α : Type}

namespace Page

theorem occupied_le (p : Page α) : p.occupied ≤ pageSize := by
  unfold occupied
  cases p.slots with
  | none => exact Nat.zero_le _
  | some slots => exact Vector.countP_le_size

theorem occupied_eq_pageSize_iff {p : Page α} :
    p.occupied = pageSize ↔ ∀ o, ∃ g x, p.slot? o = some ⟨g, some x⟩ := by
  unfold occupied slot?
  cases p.slots with
  | none =>
    refine iff_of_false (show 0 ≠ pageSize by decide) fun h => ?_
    obtain ⟨g, x, hx⟩ := h ⟨0, by decide⟩
    cases hx
  | some slots =>
    have hslot (o : Fin pageSize) : (∃ g x, slots[o] = ⟨g, some x⟩) ↔ slots[o].object.isSome := by
      rcases slots[o] with ⟨g, _ | x⟩ <;> simp
    simp only [Option.elim_some, Option.map_some, Option.some.injEq, hslot]
    rw [Vector.countP_eq_size]
    constructor
    · exact fun h o => h _ (Vector.getElem_mem o.isLt)
    · intro h s hs
      obtain ⟨i, hi, rfl⟩ := Vector.getElem_of_mem hs
      exact h ⟨i, hi⟩

theorem live_reclaim (p : Page α) : p.reclaim.live = p.live := by
  unfold reclaim
  split
  · split <;> rfl
  · rfl

end Page

namespace Pool

/-- The pool knows the number of its objects. -/
def Sized (p : Pool α) : Prop := p.live = (p.pages.map Page.live).sum

theorem sized_empty : (empty : Pool α).Sized := rfl

theorem sum_live_modify {pages : List (Page α)} {k : Nat} {page : Page α}
    (hk : pages[k]? = some page) (f : Page α → Page α) :
    ((pages.modify k f).map Page.live).sum + page.live =
      (pages.map Page.live).sum + (f page).live := by
  induction pages generalizing k with
  | nil => cases hk
  | cons first pages ih =>
    cases k with
    | zero =>
      cases hk
      simp only [List.modify_zero_cons, List.map_cons, List.sum_cons]
      omega
    | succ k =>
      have hrest := ih hk
      simp only [List.modify_succ_cons, List.map_cons, List.sum_cons]
      omega

variable {p q : Pool α}

/-- The pages that can be numbered. -/
def numberedPages (p : Pool α) : List (Page α) := p.pages.take (maxSlots / pageSize)

theorem WellFormed.live_eq_zero (w : p.WellFormed) {page : Page α}
    (hpage : page ∈ p.pages.drop (maxSlots / pageSize)) : page.live = 0 := by
  obtain ⟨k, hk⟩ := List.mem_iff_getElem?.mp hpage
  rw [List.getElem?_drop] at hk
  rw [w.counts page (List.mem_of_getElem? hk), Page.occupied_eq_zero_iff]
  intro o s hs
  obtain ⟨i, hi, rfl⟩ := exists_index (maxSlots / pageSize + k) o
  by_contra hobject
  have hslot : p.slot? i = some s := by
    rw [slot?, hi, hk]
    exact hs
  have hlt := w.lt_of_object hslot hobject
  rw [maxLive, ← Nat.div_lt_iff_lt_mul (by decide)] at hlt
  have hle : maxSlots / pageSize ≤ pageOf i := hi ▸ Nat.le_add_right ..
  exact absurd hlt (Nat.not_lt.mpr hle)

/-- No object lies in a page that cannot be numbered. -/
theorem Sized.live_eq_numbered (z : p.Sized) (w : p.WellFormed) :
    p.live = (p.numberedPages.map Page.live).sum := by
  have hrest : ((p.pages.drop (maxSlots / pageSize)).map Page.live).sum = 0 := by
    refine List.sum_eq_zero fun n hn => ?_
    obtain ⟨page, hpage, rfl⟩ := List.mem_map.mp hn
    exact w.live_eq_zero hpage
  have hsplit := congrArg (fun pages : List (Page α) => (pages.map Page.live).sum)
    (List.take_append_drop (maxSlots / pageSize) p.pages)
  simp only [List.map_append, List.sum_append, hrest, add_zero] at hsplit
  exact z.trans hsplit.symm

theorem length_numberedPages_le (p : Pool α) : p.numberedPages.length ≤ maxSlots / pageSize := by
  rw [numberedPages, List.length_take]
  exact Nat.min_le_left ..

theorem Sized.live_le (z : p.Sized) (w : p.WellFormed) : p.live ≤ maxLive := by
  have hpage (n : Nat) (hn : n ∈ p.numberedPages.map Page.live) : n ≤ pageSize := by
    obtain ⟨page, hmem, rfl⟩ := List.mem_map.mp hn
    rw [w.counts page (List.mem_of_mem_take hmem)]
    exact page.occupied_le
  have hsum := List.sum_le_card_nsmul _ pageSize hpage
  rw [List.length_map, smul_eq_mul, ← z.live_eq_numbered w] at hsum
  exact hsum.trans (Nat.mul_le_mul_right _ p.length_numberedPages_le)

/-- Where all slots hold an object, there are as many as there can be. -/
theorem Sized.live_of_full (z : p.Sized) (w : p.WellFormed) (hfull : p.Full) :
    p.live = maxLive := by
  have hslot {i : Nat} (hi : i < maxLive) : ∃ g x, p.slot? i = some ⟨g, some x⟩ := by
    have hmax : maxLive + pageSize = maxSlots + 1 := by decide
    exact hfull i (by omega)
  have hlength : p.numberedPages.length = maxSlots / pageSize := by
    obtain ⟨g, x, hx⟩ := hslot (i := maxLive - 1) (by decide)
    obtain ⟨page, hpage, -⟩ := Option.bind_eq_some_iff.mp hx
    have hlt := (List.getElem?_eq_some_iff.mp hpage).1
    have hlast : pageOf (maxLive - 1) + 1 = maxSlots / pageSize := by decide
    rw [numberedPages, List.length_take]
    omega
  have hpage (page : Page α) (h : page ∈ p.numberedPages) : page.live = pageSize := by
    rw [w.counts page (List.mem_of_mem_take h), Page.occupied_eq_pageSize_iff]
    obtain ⟨k, hk⟩ := List.mem_iff_getElem?.mp h
    have hlt := (List.getElem?_eq_some_iff.mp hk).1
    rw [numberedPages, List.getElem?_take_of_lt (hlength ▸ hlt)] at hk
    intro o
    obtain ⟨i, hi, rfl⟩ := exists_index k o
    have hmax : i < maxLive := by
      rw [maxLive, ← Nat.div_lt_iff_lt_mul (by decide)]
      exact (show i / pageSize = k from hi) ▸ hlength ▸ hlt
    obtain ⟨g, x, hx⟩ := hslot hmax
    simp only [slot?, hi, hk, Option.bind_some] at hx
    exact ⟨g, x, hx⟩
  rw [z.live_eq_numbered w, List.map_congr_left hpage, List.map_const', List.sum_replicate,
    smul_eq_mul, hlength]
  rfl

theorem map_live_modify (pages : List (Page α)) (k : Nat) (f : Page α → Page α)
    (hf : ∀ page, (f page).live = page.live) :
    (pages.modify k f).map Page.live = pages.map Page.live := by
  apply List.ext_getElem
  · simp
  · intro i h h'
    simp only [List.getElem_map, List.getElem_modify]
    split
    · exact hf _
    · rfl

theorem Sized.setSlot (z : p.Sized) (i : Nat) (s : Slot α) : (p.setSlot i s).Sized := by
  have hlive := map_live_modify p.pages (pageOf i) (·.setSlot (offsetOf i) s) fun _ => rfl
  show p.live = ((p.pages.modify (pageOf i) _).map Page.live).sum
  rw [hlive]
  exact z

/-- The number of the objects in a page changes together with that of the pool. -/
theorem Sized.setPageLive (z : p.Sized) {i : Nat} {page : Page α}
    (hpage : p.pages[pageOf i]? = some page) {f : Nat → Nat} {n : Nat}
    (hn : n + page.live = p.live + f page.live) (free : List Nat) :
    Sized ⟨p.setPageLive i f, free, n⟩ := by
  have hsum := sum_live_modify hpage fun page => { page with live := f page.live }
  have hlive : p.live = (p.pages.map Page.live).sum := z
  show n = ((p.pages.modify (pageOf i) _).map Page.live).sum
  simp only at hsum
  omega

theorem getElem?_pages_setSlot {i : Nat} {s : Slot α} (hs : p.slot? i = some s) (t : Slot α) :
    ∃ page, p.pages[pageOf i]? = some page ∧
      (p.setSlot i t).pages[pageOf i]? = some (page.setSlot (offsetOf i) t) := by
  obtain ⟨page, hpage, -⟩ := Option.bind_eq_some_iff.mp hs
  refine ⟨page, hpage, ?_⟩
  simp only [Pool.setSlot, List.getElem?_modify_eq, hpage]
  rfl

theorem Sized.setObject (z : p.Sized) (h : Handle) (x : Counted α) : (p.setObject h x).Sized :=
  z.setSlot h.index _

theorem Sized.place (z : p.Sized) {v : α} {h : Handle} (hq : p.place v = (.ok h, q)) :
    q.Sized ∧ q.live = p.live + 1 := by
  unfold Pool.place at hq
  split at hq
  · cases hq
  · next index free hfree =>
    dsimp only at hq
    split at hq
    · cases hq
    · next slot hslot =>
      cases hq
      obtain ⟨page, -, hpage⟩ := getElem?_pages_setSlot hslot ⟨slot.generation, some ⟨0, v⟩⟩
      have hn : p.live + 1 + page.live = p.live + (page.live + 1) := by omega
      exact ⟨(z.setObject ⟨index, slot.generation⟩ ⟨0, v⟩).setPageLive hpage hn free, rfl⟩

/-- No object comes with a page. -/
theorem Sized.grow (z : p.Sized) : p.grow.2.Sized ∧ p.grow.2.live = p.live := by
  have hpages : (p.grow.2.pages.map Page.live).sum = (p.pages.map Page.live).sum := by
    unfold Pool.grow
    dsimp only
    split <;> dsimp only <;> split
    · rw [map_live_modify p.pages _ Page.allocate fun _ => rfl]
    · rw [List.map_append, List.sum_append]
      rfl
    · rw [map_live_modify p.pages _ Page.allocate fun _ => rfl]
    · rw [List.map_append, List.sum_append]
      rfl
  have hlive : p.grow.2.live = p.live := by
    unfold Pool.grow
    dsimp only
    split <;> rfl
  exact ⟨(hlive.trans z).trans hpages.symm, hlive⟩

theorem Sized.create (z : p.Sized) {v : α} {h : Handle} (hq : p.create v = (.ok h, q)) :
    q.Sized ∧ q.live = p.live + 1 := by
  obtain ⟨z', hlive⟩ := z.grow
  unfold Pool.create at hq
  split at hq
  · rcases hgrow : p.grow with ⟨_ | _, p'⟩ <;> rw [hgrow] at hq z' hlive
    · cases hq
    · have hlive : p'.live = p.live := hlive
      rw [← hlive]
      exact Sized.place z' hq
  · exact z.place hq

theorem Sized.destroy (z : p.Sized) (hc : p.Counts) {h : Handle} {x : Counted α}
    (hx : p.find? h = some x) : (p.destroy h).Sized ∧ (p.destroy h).live + 1 = p.live := by
  have hslot := find?_eq_some_iff.mp hx
  obtain ⟨page, hold, hpage⟩ := getElem?_pages_setSlot hslot ⟨h.generation + 1, none⟩
  have hpos : 0 < page.live := by
    obtain ⟨page', hold', hobject⟩ := Option.bind_eq_some_iff.mp hslot
    obtain rfl := Option.some.inj (hold.symm.trans hold')
    rw [hc page (List.mem_of_getElem? hold)]
    exact Page.isSome_le_occupied hobject
  have hle : page.live ≤ p.live := by
    rw [show p.live = _ from z]
    exact List.single_le_sum (by simp) _ (List.mem_map_of_mem (List.mem_of_getElem? hold))
  have hlive : (p.destroy h).live = p.live - 1 := rfl
  have hn : p.live - 1 + page.live = p.live + (page.live - 1) := by omega
  exact ⟨(z.setSlot h.index ⟨h.generation + 1, none⟩).setPageLive hpage hn _, by omega⟩

theorem Sized.shrink (z : p.Sized) : p.shrink.2.Sized := by
  have hlive : (p.pages.map Page.reclaim).map Page.live = p.pages.map Page.live := by
    rw [List.map_map]
    exact List.map_congr_left fun page _ => page.live_reclaim
  show p.live = ((p.pages.map Page.reclaim).map Page.live).sum
  rw [hlive]
  exact z

/-- A pool refuses a new object exactly when it has as many as it can have. -/
theorem create_refused_iff (w : p.WellFormed) (z : p.Sized) (v : α) :
    (p.create v).1 = .error .exhausted ↔ p.live = maxLive := by
  rcases create_cases w v with ⟨he, -, -, hfull⟩ | ⟨i, g, p', q, hq, -, r, w'⟩
  · exact iff_of_true (by rw [he]) (z.live_of_full w hfull)
  · refine iff_of_false (by rw [hq]; nofun) ?_
    obtain ⟨z', hlive⟩ := z.create hq
    have := z'.live_le w'
    omega

end Pool
end ScriptFront
