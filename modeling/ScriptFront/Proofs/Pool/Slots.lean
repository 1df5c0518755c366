import ScriptFront.Pool
import Mathlib.Algebra.Group.Nat.Defs
import Mathlib.Logic.Function.Basic
import Mathlib.Tactic.SplitIfs

/-! What the operations of a pool do to its slots. A slot is put in the place of another one
(`Replaces`), or a page gets slots (`Grows`) or gives them back (`shrink`). -/
namespace ScriptFront

variable {α : Type}

namespace Page

/-- How many of the slots hold an object. -/
def occupied (p : Page α) : Nat := p.slots.elim 0 fun slots => slots.countP (·.object.isSome)

/-- The generation of a slot, or the one that it starts at when the page gets slots again. -/
def generation (p : Page α) (offset : Fin pageSize) : UInt32 :=
  (p.slot? offset).elim p.nextGeneration (·.generation)

theorem isSome_slot? (p : Page α) (o : Fin pageSize) : (p.slot? o).isSome = p.isResident := by
  simp [slot?, isResident]

@[simp] theorem slot?_allocate (p : Page α) (o : Fin pageSize) :
    p.allocate.slot? o = some ⟨p.nextGeneration, none⟩ := by
  simp [slot?, allocate]

@[simp] theorem occupied_allocate (p : Page α) : p.allocate.occupied = 0 := by
  simp [occupied, allocate, Vector.countP_replicate]

def withSlot (p : Page α) (offset : Fin pageSize) (t : Slot α) (live : Nat) : Page α :=
  { p.setSlot offset t with live }

theorem slot?_withSlot {p : Page α} {o : Fin pageSize} {s : Slot α} (hs : p.slot? o = some s)
    (t : Slot α) (n : Nat) (o' : Fin pageSize) :
    (p.withSlot o t n).slot? o' = if o = o' then some t else p.slot? o' := by
  unfold slot? at hs
  unfold slot? withSlot setSlot
  obtain ⟨slots, hslots, -⟩ := Option.map_eq_some_iff.mp hs
  by_cases h : o = o'
  · simp [hslots, h]
  · simp [hslots, h, Fin.val_ne_of_ne h]

@[simp] theorem isResident_withSlot (p : Page α) (o : Fin pageSize) (t : Slot α) (n : Nat) :
    (p.withSlot o t n).isResident = p.isResident := by
  simp [isResident, withSlot, setSlot]

theorem occupied_withSlot {p : Page α} {o : Fin pageSize} {s : Slot α} (hs : p.slot? o = some s)
    (t : Slot α) (n : Nat) : (p.withSlot o t n).occupied + s.object.isSome.toNat =
      p.occupied + t.object.isSome.toNat := by
  unfold slot? at hs
  unfold occupied withSlot setSlot
  obtain ⟨slots, hslots, rfl⟩ := Option.map_eq_some_iff.mp hs
  simp only [hslots, Option.map_some, Option.elim_some, Vector.countP_set, Fin.getElem_fin]
  have hpos : slots[o.val].object.isSome = true → 0 < slots.countP (·.object.isSome) := fun h =>
    Vector.countP_pos_iff.mpr ⟨slots[o.val], Vector.getElem_mem _, h⟩
  cases hb : slots[o.val].object.isSome <;> cases t.object.isSome <;> simp
  all_goals have := hpos hb; omega

theorem isSome_le_occupied {p : Page α} {o : Fin pageSize} {s : Slot α}
    (hs : p.slot? o = some s) : s.object.isSome.toNat ≤ p.occupied := by
  have := occupied_withSlot hs ⟨0, none⟩ 0
  simp only [Option.isSome_none, Bool.toNat_false] at this
  omega

theorem occupied_eq_zero_iff {p : Page α} :
    p.occupied = 0 ↔ ∀ o s, p.slot? o = some s → s.object = none := by
  unfold occupied slot?
  cases p.slots with
  | none => simp
  | some slots =>
    simp only [Option.elim_some, Vector.countP_eq_zero, Option.map_some, Option.some.injEq]
    constructor
    · rintro h o s rfl
      simpa using h _ (Vector.getElem_mem o.isLt)
    · intro h s hs
      obtain ⟨i, hi, rfl⟩ := Vector.mem_iff_getElem.mp hs
      simpa using h ⟨i, hi⟩ _ rfl

theorem reclaim_of_live_ne {p : Page α} (hl : p.live ≠ 0) : p.reclaim = p := by
  unfold reclaim
  split <;> simp_all

theorem reclaim_of_not_isResident {p : Page α} (hr : p.isResident = false) : p.reclaim = p := by
  unfold reclaim
  split
  · simp_all [isResident]
  · rfl

theorem isResident_reclaim (p : Page α) :
    p.reclaim.isResident = (p.isResident && p.live != 0) := by
  by_cases hl : p.live = 0
  · unfold reclaim
    split <;> simp_all [isResident]
  · simp [reclaim_of_live_ne hl, hl]

theorem slot?_reclaim (p : Page α) (o : Fin pageSize) :
    p.reclaim.slot? o = if p.live = 0 then none else p.slot? o := by
  by_cases hl : p.live = 0
  · rw [if_pos hl, ← Option.not_isSome_iff_eq_none, isSome_slot?, isResident_reclaim]
    simp [hl]
  · rw [if_neg hl, reclaim_of_live_ne hl]

theorem occupied_reclaim {p : Page α} (hc : p.live = p.occupied) :
    p.reclaim.live = p.reclaim.occupied := by
  by_cases hl : p.live = 0
  · unfold reclaim
    split
    · simp [hl, occupied]
    · exact hc
  · rwa [reclaim_of_live_ne hl]

private theorem le_max (a b : UInt32) : a ≤ max a b ∧ b ≤ max a b := by
  show a ≤ (if a ≤ b then b else a) ∧ b ≤ (if a ≤ b then b else a)
  split_ifs with h
  · exact ⟨h, UInt32.le_refl b⟩
  · exact ⟨UInt32.le_refl a, by rw [UInt32.le_iff_toNat_le] at h ⊢; omega⟩

private theorem max_toNat_le {a b : UInt32} {n : Nat} (ha : a.toNat ≤ n) (hb : b.toNat ≤ n) :
    (max a b).toNat ≤ n := by
  show (if a ≤ b then b else a).toNat ≤ n
  split_ifs <;> assumption

theorem foldl_max_generation (slots : List (Slot α)) (g : UInt32) {n : Nat} (hg : g.toNat ≤ n)
    (hn : ∀ s ∈ slots, s.generation.toNat ≤ n) :
    (slots.foldl (fun g slot => max g slot.generation) g).toNat ≤ n ∧
      g ≤ slots.foldl (fun g slot => max g slot.generation) g ∧
      ∀ s ∈ slots, s.generation ≤ slots.foldl (fun g slot => max g slot.generation) g := by
  induction slots generalizing g with
  | nil => exact ⟨hg, UInt32.le_refl g, by simp⟩
  | cons s slots ih =>
    rw [List.forall_mem_cons] at hn ⊢
    obtain ⟨hle, hmax, hall⟩ := ih (max g s.generation) (max_toNat_le hg hn.1) hn.2
    have hm := le_max g s.generation
    exact ⟨hle, UInt32.le_trans hm.1 hmax, UInt32.le_trans hm.2 hmax, hall⟩

/-- A page that gives its slots back goes on behind all of their generations. -/
theorem generation_reclaim {p : Page α} (hl : p.live = 0) (hr : p.isResident = true) {n : Nat}
    (hn : ∀ o, (p.generation o).toNat ≤ n) (hw : n + 1 < 2 ^ 32) (o : Fin pageSize) :
    p.generation o < p.reclaim.generation o ∧ (p.reclaim.generation o).toNat ≤ n + 1 := by
  obtain ⟨slots, hslots⟩ := Option.isSome_iff_exists.mp hr
  have hgen : ∀ o, p.generation o = slots[o].generation := by simp [generation, slot?, hslots]
  have hall : ∀ s ∈ slots.toList, s.generation.toNat ≤ n := by
    intro s hs
    obtain ⟨i, hi, rfl⟩ := Vector.mem_iff_getElem.mp (Vector.mem_toList_iff.mp hs)
    exact hgen ⟨i, hi⟩ ▸ hn ⟨i, hi⟩
  obtain ⟨hle, -, hmax⟩ := foldl_max_generation slots.toList 0 (Nat.zero_le n) hall
  have hrec : p.reclaim.generation o =
      slots.toList.foldl (fun g slot => max g slot.generation) 0 + 1 := by
    simp [generation, slot?, reclaim, hslots, hl]
  have ho := hmax slots[o] (Vector.mem_toList_iff.mpr (Vector.getElem_mem _))
  rw [hrec, hgen, UInt32.lt_iff_toNat_lt, UInt32.toNat_add]
  rw [UInt32.le_iff_toNat_le] at ho
  simp only [UInt32.toNat_one]
  omega

end Page

namespace Pool

theorem index_eq_of_pageOf_eq {i j : Nat} (hp : pageOf i = pageOf j)
    (ho : offsetOf i = offsetOf j) : i = j := by
  have ho' : i % pageSize = j % pageSize := congrArg Fin.val ho
  unfold pageOf at hp
  rw [← Nat.div_add_mod i pageSize, ← Nat.div_add_mod j pageSize, hp, ho']

theorem exists_index (k : Nat) (o : Fin pageSize) : ∃ i, pageOf i = k ∧ offsetOf i = o := by
  have hpos : 0 < pageSize := by decide
  refine ⟨o + pageSize * k, ?_, ?_⟩
  · rw [pageOf, Nat.add_mul_div_left _ _ hpos, Nat.div_eq_of_lt o.isLt, Nat.zero_add]
  · apply Fin.ext
    show (o + pageSize * k) % pageSize = o
    rw [Nat.add_mul_mod_self_left, Nat.mod_eq_of_lt o.isLt]

def hasPage (p : Pool α) (k : Nat) : Bool := p.pages[k]?.any (·.isResident)

/-- The generation of the slot with an index, once the index has a page. -/
def generation? (p : Pool α) (i : Nat) : Option UInt32 :=
  p.pages[pageOf i]?.map (·.generation (offsetOf i))

/-- Every page knows how many of its slots hold an object. -/
def Counts (p : Pool α) : Prop := ∀ page ∈ p.pages, page.live = page.occupied

theorem isSome_slot? (p : Pool α) (i : Nat) : (p.slot? i).isSome = p.hasPage (pageOf i) := by
  unfold slot? hasPage
  cases p.pages[pageOf i]? <;> simp [Page.isSome_slot?]

theorem generation?_of_slot? {p : Pool α} {i : Nat} {s : Slot α} (hs : p.slot? i = some s) :
    p.generation? i = some s.generation := by
  obtain ⟨page, hpage, hslot⟩ := Option.bind_eq_some_iff.mp hs
  simp [generation?, hpage, Page.generation, hslot]

theorem find?_eq_some_iff {p : Pool α} {h : Handle} {x : Counted α} :
    p.find? h = some x ↔ p.slot? h.index = some ⟨h.generation, some x⟩ := by
  unfold find?
  cases p.slot? h.index with
  | none => simp
  | some s =>
    obtain ⟨g, object⟩ := s
    by_cases hg : g = h.generation <;> simp [hg]

/-- In `q` the slot with the index `i` is `t`; in `p` it is `s`. All else is the same. -/
structure Replaces (p q : Pool α) (i : Nat) (s t : Slot α) : Prop where
  before : p.slot? i = some s
  slot : ∀ j, q.slot? j = if i = j then some t else p.slot? j
  generation : ∀ j, q.generation? j = if i = j then some t.generation else p.generation? j
  page : ∀ k, q.hasPage k = p.hasPage k
  counts : p.Counts → q.Counts

theorem replaces_of_pages {p q : Pool α} {i : Nat} {s t : Slot α} {f : Nat → Nat}
    (hs : p.slot? i = some s)
    (hq : q.pages =
      p.pages.modify (pageOf i) fun page => page.withSlot (offsetOf i) t (f page.live))
    (hf : ∀ n, f (n + s.object.isSome.toNat) = n + t.object.isSome.toNat) :
    Replaces p q i s t := by
  obtain ⟨page, hpage, hslot⟩ := Option.bind_eq_some_iff.mp hs
  have hpages : ∀ k, q.pages[k]? = if pageOf i = k then
      some (page.withSlot (offsetOf i) t (f page.live)) else p.pages[k]? := by
    intro k
    rw [hq, List.getElem?_modify]
    by_cases hk : pageOf i = k
    · subst hk; simp [hpage]
    · simp [hk]
  have hne : ∀ j, pageOf i = pageOf j → i ≠ j → offsetOf i ≠ offsetOf j :=
    fun j hp hi ho => hi (index_eq_of_pageOf_eq hp ho)
  refine ⟨hs, fun j => ?_, fun j => ?_, fun k => ?_, fun hc x hx => ?_⟩
  · unfold slot?
    rw [hpages]
    by_cases hp : pageOf i = pageOf j
    · rw [if_pos hp, Option.bind_some, Page.slot?_withSlot hslot, ← hp, hpage, Option.bind_some]
      by_cases hi : i = j
      · simp [hi]
      · simp [hi, hne j hp hi]
    · have hi : i ≠ j := fun hi => hp (hi ▸ rfl)
      simp [hp, hi]
  · unfold generation?
    rw [hpages]
    by_cases hp : pageOf i = pageOf j
    · rw [if_pos hp, Option.map_some, Page.generation, Page.slot?_withSlot hslot, ← hp, hpage,
        Option.map_some]
      by_cases hi : i = j
      · simp [hi]
      · simp only [hne j hp hi, if_false, hi]; rfl
    · have hi : i ≠ j := fun hi => hp (hi ▸ rfl)
      simp [hp, hi]
  · unfold hasPage
    rw [hpages]
    by_cases hk : pageOf i = k
    · subst hk; simp [hpage]
    · simp [hk]
  · obtain ⟨k, hk⟩ := List.mem_iff_getElem?.mp hx
    rw [hpages] at hk
    split_ifs at hk with hi
    · obtain rfl := Option.some.inj hk
      have hlive := hc page (List.mem_of_getElem? hpage)
      have hocc := Page.occupied_withSlot hslot t (f page.live)
      have hle := Page.isSome_le_occupied hslot
      have hf' := hf (page.live - s.object.isSome.toNat)
      rw [Nat.sub_add_cancel (by omega)] at hf'
      show f page.live = _
      omega
    · exact hc x (List.mem_of_getElem? hk)

/-- Only the object of the one handle changes. -/
theorem Replaces.find? {p q : Pool α} {i : Nat} {s t : Slot α} (r : Replaces p q i s t)
    (ht : t.generation = s.generation ∨ t.object = none) :
    q.find? = Function.update p.find? ⟨i, s.generation⟩ t.object := by
  funext h
  unfold Pool.find?
  rw [r.slot]
  by_cases hi : i = h.index
  · subst hi
    by_cases hg : s.generation = h.generation
    · have hh : h = ⟨h.index, s.generation⟩ := by rw [hg]
      rw [← hh, Function.update_self]
      rcases ht with ht | ht
      · simp [ht, hg]
      · simp [ht]
    · have hh : h ≠ ⟨h.index, s.generation⟩ := fun hh => hg (congrArg Handle.generation hh).symm
      rw [Function.update_of_ne hh, r.before]
      rcases ht with ht | ht
      · simp [ht, hg]
      · simp [ht, hg]
  · have hh : h ≠ ⟨i, s.generation⟩ := fun hh => hi (congrArg Handle.index hh).symm
    rw [Function.update_of_ne hh, if_neg hi]

/-- The page `k` of `q` has slots, which it had not in `p`. All of them are empty. -/
structure Opens (p q : Pool α) (k : Nat) : Prop where
  before : p.hasPage k = false
  slot : ∀ j, q.slot? j =
    if k = pageOf j then some ⟨(p.generation? j).getD 0, none⟩ else p.slot? j
  generation : ∀ j, q.generation? j =
    if k = pageOf j then some ((p.generation? j).getD 0) else p.generation? j
  page : ∀ l, q.hasPage l = (k == l || p.hasPage l)
  counts : p.Counts → q.Counts

/-- The slots of the page are numbered, and all of them are free. -/
structure Grows (p q : Pool α) (k : Nat) : Prop extends Opens p q k where
  numbered : (k + 1) * pageSize ≤ maxSlots
  free : q.free = List.range' (k * pageSize) pageSize ++ p.free

/-- The slots of the page cannot be numbered, and none of them is free. -/
structure Overflows (p q : Pool α) (k : Nat) : Prop extends Opens p q k where
  no_room : maxSlots < (k + 1) * pageSize
  free : q.free = p.free

/-- A page without slots, or the next page that there is not yet, gets slots. -/
theorem opens_of_pages {p q : Pool α} {k : Nat} {page : Page α}
    (hk : p.pages[k]? = some page ∧ page.slots = none ∨ p.pages[k]? = none ∧ page = ⟨none, 0, 0⟩)
    (hq : ∀ l, q.pages[l]? = if k = l then some page.allocate else p.pages[l]?) : Opens p q k := by
  have hslots : page.slots = none := by rcases hk with ⟨-, h⟩ | ⟨-, h⟩ <;> simp [h]
  have hnext : ∀ j, k = pageOf j → (p.generation? j).getD 0 = page.nextGeneration := by
    rintro j rfl
    rcases hk with ⟨h, -⟩ | ⟨h, hp⟩
    · simp [generation?, h, Page.generation, Page.slot?, hslots]
    · simp [generation?, h, hp]
  refine ⟨?_, fun j => ?_, fun j => ?_, fun l => ?_, fun hc x hx => ?_⟩
  · rcases hk with ⟨h, -⟩ | ⟨h, -⟩ <;> simp [hasPage, h, Page.isResident, hslots]
  · unfold slot?
    rw [hq]
    by_cases hj : k = pageOf j
    · simp [hj, hnext j hj]
    · simp [hj]
  · unfold generation?
    rw [hq]
    by_cases hj : k = pageOf j
    · rw [if_pos hj, if_pos hj, Option.map_some, Page.generation, Page.slot?_allocate]
      exact congrArg some (hnext j hj).symm
    · simp [hj]
  · unfold hasPage
    rw [hq]
    by_cases hl : k = l
    · simp [hl, Page.isResident, Page.allocate]
    · simp [hl]
  · obtain ⟨l, hl⟩ := List.mem_iff_getElem?.mp hx
    rw [hq] at hl
    split_ifs at hl with hi
    · obtain rfl := Option.some.inj hl
      rw [Page.occupied_allocate]
      rcases hk with ⟨h, -⟩ | ⟨-, h⟩
      · have hlive := hc page (List.mem_of_getElem? h)
        rwa [Page.occupied, hslots] at hlive
      · rw [h]; rfl
    · exact hc x (List.mem_of_getElem? hl)

theorem Opens.find? {p q : Pool α} {k : Nat} (o : Opens p q k) : q.find? = p.find? := by
  funext h
  unfold Pool.find?
  rw [o.slot]
  by_cases hk : k = pageOf h.index
  · have hnone : p.slot? h.index = none := by
      rw [← Option.not_isSome_iff_eq_none, isSome_slot?, ← hk, o.before]; simp
    simp [hk, hnone]
  · simp [hk]

/-- The first page without slots, or the next page that there is not yet, gets slots. -/
theorem opens_grow (p : Pool α) :
    let k := p.pages.findIdx (!·.isResident)
    Opens p p.grow.2 k ∧ ∀ l < k, p.hasPage l = true := by
  intro k
  have hle : k ≤ p.pages.length := List.findIdx_le_length
  have hpages : p.grow.2.pages =
      if k < p.pages.length then p.pages.modify k Page.allocate else p.pages ++ [.fresh] := by
    unfold grow
    dsimp only
    split <;> rfl
  refine ⟨?_, fun l hl => ?_⟩
  · by_cases hlt : k < p.pages.length
    · have hres : p.pages[k].isResident = false := by
        simpa using List.findIdx_getElem (w := hlt)
      have hslots : p.pages[k].slots = none := by simpa [Page.isResident] using hres
      refine opens_of_pages (.inl ⟨List.getElem?_eq_getElem hlt, hslots⟩) fun l => ?_
      rw [hpages, if_pos hlt, List.getElem?_modify]
      by_cases hl : k = l
      · subst hl
        simp [hlt]
      · simp [hl]
    · have hlen : k = p.pages.length := by omega
      refine opens_of_pages (.inr ⟨by simp [hlen], rfl⟩) fun l => ?_
      rw [hpages, if_neg hlt, hlen, List.getElem?_append]
      by_cases hl : l < p.pages.length
      · rw [if_pos hl, if_neg (by omega)]
      · by_cases hl' : p.pages.length = l
        · subst hl'
          simp [Page.fresh]
        · rw [if_neg hl, if_neg hl', List.getElem?_eq_none (by simp; omega),
            List.getElem?_eq_none (by omega)]
  · have hlen : l < p.pages.length := by omega
    have hres := List.not_of_lt_findIdx hl
    simpa [hasPage, hlen] using hres

/-- A page gets slots. Either it cannot be numbered, and all pages before it have slots, or all its
slots are free. -/
theorem grow_cases (p : Pool α) :
    (∃ q k, p.grow = (.error .exhausted, q) ∧ Overflows p q k ∧ ∀ l < k, p.hasPage l = true) ∨
      ∃ q k, p.grow = (.ok (), q) ∧ Grows p q k := by
  obtain ⟨hopens, hbefore⟩ := opens_grow p
  revert hopens hbefore
  unfold grow
  generalize p.pages.findIdx (!·.isResident) = k
  dsimp only
  split
  · next hmax => exact fun hopens hbefore => .inl ⟨_, k, rfl, ⟨hopens, hmax, rfl⟩, hbefore⟩
  · next hmax => exact fun hopens _ => .inr ⟨_, k, rfl, ⟨hopens, Nat.not_lt.mp hmax, rfl⟩⟩

theorem slot?_shrink (p : Pool α) (i : Nat) :
    p.shrink.2.slot? i = if p.pages[pageOf i]?.any (·.live == 0) then none else p.slot? i := by
  unfold slot? shrink
  rw [List.getElem?_map]
  cases p.pages[pageOf i]? with
  | none => simp
  | some page => simp [Page.slot?_reclaim]

theorem hasPage_shrink (p : Pool α) (k : Nat) :
    p.shrink.2.hasPage k = p.pages[k]?.any fun page => page.isResident && page.live != 0 := by
  unfold hasPage shrink
  rw [List.getElem?_map]
  cases p.pages[k]? with
  | none => simp
  | some page => simp [Page.isResident_reclaim]

theorem counts_shrink {p : Pool α} (hc : p.Counts) : p.shrink.2.Counts := by
  intro x hx
  obtain ⟨page, hpage, rfl⟩ := List.mem_map.mp hx
  exact Page.occupied_reclaim (hc page hpage)

theorem any_live_eq_zero_iff {p : Pool α} (hc : p.Counts) {k : Nat} :
    p.pages[k]?.any (·.live == 0) = true ↔
      k < p.pages.length ∧ ∀ i s, pageOf i = k → p.slot? i = some s → s.object = none := by
  cases hk : p.pages[k]? with
  | none =>
    have := List.getElem?_eq_none_iff.mp hk
    simp; omega
  | some page =>
    have hlt := (List.getElem?_eq_some_iff.mp hk).1
    rw [Option.any_some, beq_iff_eq, hc page (List.mem_of_getElem? hk), Page.occupied_eq_zero_iff]
    constructor
    · rintro h
      refine ⟨hlt, fun i s hi hs => h (offsetOf i) s ?_⟩
      simpa [slot?, hi, hk] using hs
    · rintro ⟨-, h⟩ o s hs
      obtain ⟨i, hi, rfl⟩ := exists_index k o
      exact h i s hi (by simpa [slot?, hi, hk] using hs)

theorem find?_shrink {p : Pool α} (hc : p.Counts) : p.shrink.2.find? = p.find? := by
  funext h
  unfold find?
  rw [slot?_shrink]
  split_ifs with hl
  · have hnone := ((any_live_eq_zero_iff hc).mp hl).2 h.index
    cases hs : p.slot? h.index with
    | none => rfl
    | some s => simp [hnone s rfl hs]
  · rfl

theorem generation?_shrink {p : Pool α} {n : Nat}
    (hn : ∀ i g, p.generation? i = some g → g.toNat ≤ n) (hw : n + 1 < 2 ^ 32) (i : Nat) :
    (∀ g, p.generation? i = some g → ∃ g', p.shrink.2.generation? i = some g' ∧ g ≤ g') ∧
      ∀ g', p.shrink.2.generation? i = some g' → g'.toNat ≤ n + 1 := by
  have hi : p.shrink.2.generation? i =
      p.pages[pageOf i]?.map fun page => page.reclaim.generation (offsetOf i) := by
    unfold generation? shrink
    rw [List.getElem?_map, Option.map_map]
    rfl
  rw [hi]
  unfold generation? at hn ⊢
  cases hk : p.pages[pageOf i]? with
  | none => simp
  | some page =>
    have hpage : ∀ o, (page.generation o).toNat ≤ n := by
      intro o
      obtain ⟨j, hj, rfl⟩ := exists_index (pageOf i) o
      exact hn j _ (by rw [hj, hk]; rfl)
    simp only [Option.map_some, Option.some.injEq, forall_eq', exists_eq_left']
    by_cases hl : page.live = 0 ∧ page.isResident = true
    · obtain ⟨hlt, hle⟩ := Page.generation_reclaim hl.1 hl.2 hpage hw (offsetOf i)
      exact ⟨UInt32.le_of_lt hlt, hle⟩
    · have hsame : page.reclaim = page := by
        by_cases hl' : page.live = 0
        · exact Page.reclaim_of_not_isResident (by simpa [hl'] using hl)
        · exact Page.reclaim_of_live_ne hl'
      rw [hsame]
      exact ⟨UInt32.le_refl _, Nat.le_succ_of_le (hpage _)⟩

end Pool
end ScriptFront
