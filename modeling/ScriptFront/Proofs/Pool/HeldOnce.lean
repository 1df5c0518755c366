import ScriptFront.Proofs.Pool.Capacity
import ScriptFront.Proofs.Pool.Holds

/-! Pools whose objects are held once each. What such a pool answers depends on the number of its
objects alone: an object is made unless there are as many as there can be, and the value of an object
that is held stays as it is. -/
namespace ScriptFront

variable {α : Type}

namespace Pool

/-- The objects of the pool are those that `m` holds, each once. -/
structure HeldOnce (p : Pool α) (m : Multiset Handle) : Prop where
  heldBy : p.HeldBy m
  nodup : m.Nodup
  live : p.live = m.card
  sized : p.Sized

theorem heldOnce_empty : (empty : Pool α).HeldOnce 0 :=
  ⟨heldBy_empty, Multiset.nodup_zero, rfl, sized_empty⟩

theorem find?_setObject {p : Pool α} {h : Handle} {x : Counted α} (hx : p.find? h = some x)
    (y : Counted α) : (p.setObject h y).find? = Function.update p.find? h (some y) :=
  (replaces_setObject hx y).find? (.inl rfl)

theorem find?_destroy {p : Pool α} {h : Handle} {x : Counted α} (hx : p.find? h = some x) :
    (p.destroy h).find? = Function.update p.find? h none :=
  (replaces_destroy hx).find? (.inr rfl)

theorem find?_create {p q : Pool α} (w : p.WellFormed) {v : α} {h : Handle}
    (hq : p.create v = (.ok h, q)) :
    p.find? h = none ∧ q.find? = Function.update p.find? h (some ⟨0, v⟩) := by
  obtain ⟨i, g, p', rfl, hp', r, -⟩ := create_of_ok w hq
  have hfind : p'.find? = p.find? := by
    rcases hp' with rfl | ⟨-, gr⟩
    · rfl
    · exact gr.find?
  refine ⟨?_, hfind ▸ r.find? (.inl rfl)⟩
  rw [← hfind, Pool.find?, r.before]
  exact if_pos rfl

theorem get_eq_of_find? {p q : Pool α} {h : Handle} (hfind : q.find? h = p.find? h) :
    q.get h = p.get h := by
  simp only [get, find, hfind]

theorem get_of_find? {p : Pool α} {h : Handle} {x : Counted α} (hx : p.find? h = some x) :
    p.get h = .ok x.value := by
  rw [get, find_of_find? hx]
  rfl

namespace HeldOnce

variable {p : Pool α} {m : Multiset Handle}

theorem find? (b : p.HeldOnce m) {h : Handle} (hm : h ∈ m) : ∃ v, p.find? h = some ⟨1, v⟩ := by
  obtain ⟨⟨refs, v⟩, hx⟩ := b.heldBy.alive h hm
  have hrefs := b.heldBy.refs h _ hx
  rw [Multiset.count_eq_one_of_mem b.nodup hm] at hrefs
  exact ⟨v, by rw [hx, ← hrefs]⟩

theorem live_le (b : p.HeldOnce m) : p.live ≤ maxLive := b.sized.live_le b.heldBy.wellFormed

theorem card_le (b : p.HeldOnce m) : m.card ≤ maxLive := b.live ▸ b.live_le

/-- A new object is held, unless there are as many objects as there can be. -/
theorem create (b : p.HeldOnce m) (v : α) :
    (p.live = maxLive ∧ ∃ q, p.create v = (.error .exhausted, q) ∧ q.HeldOnce m ∧
        ∀ h, q.get h = p.get h) ∨
      (p.live < maxLive ∧ ∃ h q q', p.create v = (.ok h, q) ∧ q.retain h = .ok (1, q') ∧
        q'.HeldOnce (h ::ₘ m) ∧ q'.get h = .ok v ∧ ∀ h' ∈ m, q'.get h' = p.get h') := by
  have w := b.heldBy.wellFormed
  have hrefused := create_refused_iff w b.sized v
  rcases b.heldBy.create v with ⟨he, hpool, -⟩ | ⟨h, q, hq, b', hnew⟩
  · rw [he] at hrefused
    obtain ⟨z, hlive⟩ := b.sized.grow
    exact .inl ⟨hrefused.mp rfl, _, he, ⟨b.heldBy.refused hpool, b.nodup, hlive.trans b.live, z⟩,
      fun h => get_eq_of_find? (congrFun hpool.find? h)⟩
  · have hlt : p.live < maxLive := by
      refine Nat.lt_of_le_of_ne b.live_le fun hmax => ?_
      rw [hq] at hrefused
      cases hrefused.mpr hmax
    obtain ⟨hdead, hfind⟩ := find?_create w hq
    obtain ⟨z, hlive⟩ := b.sized.create hq
    have hnot : h ∉ m := by
      intro hm
      obtain ⟨x, hx⟩ := b.heldBy.alive h hm
      rw [hdead] at hx
      cases hx
    have hretain : q.retain h = .ok (1, q.setObject h ⟨1, v⟩) := by
      rw [retain_of_find? hnew]
      rfl
    have hafter := find?_setObject hnew ⟨1, v⟩
    refine .inr ⟨hlt, h, q, _, hq, hretain, ⟨?_, ?_, ?_, z.setObject h _⟩, ?_, ?_⟩
    · refine b'.setObject hnew _ ?_ fun h' hne => Multiset.count_cons_of_ne hne m
      rw [Multiset.count_cons_self, Multiset.count_eq_zero_of_notMem hnot]
    · exact Multiset.nodup_cons.mpr ⟨hnot, b.nodup⟩
    · rw [Multiset.card_cons, ← b.live]
      exact hlive
    · exact get_of_find? (x := ⟨1, v⟩) (by rw [hafter, Function.update_self])
    · intro h' hm
      have hne : h' ≠ h := fun he => hnot (he ▸ hm)
      exact get_eq_of_find? (by rw [hafter, Function.update_of_ne hne, hfind,
        Function.update_of_ne hne])

/-- The object of a hold that is given up dies, and no other one changes. -/
theorem release {h : Handle} (b : p.HeldOnce (h ::ₘ m)) :
    ∃ v q, p.release h = .ok (v, q) ∧ q.HeldOnce m ∧ ∀ h' ∈ m, q.get h' = p.get h' := by
  obtain ⟨v, hx⟩ := b.find? (Multiset.mem_cons_self h m)
  obtain ⟨hnot, hnodup⟩ := Multiset.nodup_cons.mp b.nodup
  obtain ⟨v', q, hq, b'⟩ := b.heldBy.release_cons
  have hrelease : p.release h = .ok (some v, p.destroy h) := by
    rw [release_of_find? hx]
    rfl
  rw [hrelease] at hq
  cases hq
  obtain ⟨z, hlive⟩ := b.sized.destroy b.heldBy.wellFormed.counts hx
  refine ⟨_, _, hrelease, ⟨b', hnodup, ?_, z⟩, fun h' hm => get_eq_of_find? ?_⟩
  · have hcard := b.live
    rw [Multiset.card_cons] at hcard
    omega
  · have hne : h' ≠ h := fun he => hnot (he ▸ hm)
    rw [find?_destroy hx, Function.update_of_ne hne]

theorem shrink (b : p.HeldOnce m) :
    p.shrink.2.HeldOnce m ∧ ∀ h, p.shrink.2.get h = p.get h :=
  ⟨⟨b.heldBy.shrink, b.nodup, b.live, b.sized.shrink⟩, fun h =>
    get_eq_of_find? (congrFun (find?_shrink b.heldBy.wellFormed.counts) h)⟩

end HeldOnce

end Pool

namespace HandleList

variable {room : Nat} {p : Pool α} {m : Multiset Handle} {l : HandleList room}

theorem values_withHandles (l : HandleList room) (hs : List Handle) (p : Pool α) :
    (l.withHandles hs).values p = hs.map p.get := rfl

/-- A list shows the same values in another pool if its entries have the same values there. -/
theorem length_values (l : HandleList room) (p : Pool α) :
    (l.values p).length = l.handles.length := List.length_map _

theorem values_congr {q : Pool α} (h : ∀ h ∈ l.handles, q.get h = p.get h) :
    l.values q = l.values p := List.map_congr_left h

/-- A value comes to the end of the list, unless there are as many objects as there can be. -/
theorem createBack_cases (b : p.HeldOnce (l.handles + m)) (v : α) :
    (p.live = Pool.maxLive ∧ ∃ q, l.createBack p v = ⟨.error .exhausted, l, q⟩ ∧
        q.HeldOnce (l.handles + m) ∧ ∀ h, q.get h = p.get h) ∨
      (p.live < Pool.maxLive ∧ ∃ h l' q, l.createBack p v = ⟨.ok h, l', q⟩ ∧
        q.HeldOnce (l'.handles + m) ∧ l'.values q = l.values p ++ [.ok v] ∧
        ∀ h' ∈ m, q.get h' = p.get h') := by
  rcases b.create v with ⟨hfull, q, he, b'⟩ | ⟨hlt, h, q, q', hq, hq', b', hv, hkept⟩
  · exact .inl ⟨hfull, q, by rw [createBack, createWith, he], b'⟩
  · refine .inr ⟨hlt, h, l.withHandles (l.handles ++ [h]), q', ?_, ?_, ?_, ?_⟩
    · simp only [createBack, createWith, hq, add, hold, hq']
      rfl
    · have hperm : ((l.handles ++ [h] : List Handle) : Multiset Handle) =
          (h :: l.handles : List Handle) := Multiset.coe_eq_coe.mpr List.perm_append_comm
      rwa [handles_withHandles, hperm, ← Multiset.cons_coe, Multiset.cons_add]
    · rw [values_withHandles, List.map_append, List.map_singleton, hv]
      refine congrArg (· ++ _) (List.map_congr_left fun h' hh => hkept h' ?_)
      exact Multiset.mem_add.mpr (.inl hh)
    · exact fun h' hh => hkept h' (Multiset.mem_add.mpr (.inr hh))

theorem releaseAll_heldOnce {hs : List Handle} (b : p.HeldOnce (hs + m)) :
    ∃ q, releaseAll p hs = (.ok (), q) ∧ q.HeldOnce m ∧ ∀ h ∈ m, q.get h = p.get h := by
  induction hs generalizing p with
  | nil => exact ⟨p, rfl, by simpa using b, fun _ _ => rfl⟩
  | cons h hs ih =>
    rw [← Multiset.cons_coe, Multiset.cons_add] at b
    obtain ⟨v, q, hq, b', hkept⟩ := b.release
    obtain ⟨q', hq', b'', hkept'⟩ := ih b'
    refine ⟨q', ?_, b'', fun h' hm => ?_⟩
    · rw [releaseAll, hq]
      exact hq'
    · rw [hkept' h' hm, hkept h' (Multiset.mem_add.mpr (.inr hm))]

/-- Entries that leave a list take their objects with them. -/
theorem keep_heldOnce (b : p.HeldOnce (l.handles + m)) {kept gone : List Handle}
    (hperm : l.handles.Perm (gone ++ kept)) :
    ∃ q, l.keep p kept gone = ⟨.ok (), l.withHandles kept, q⟩ ∧ q.HeldOnce (kept + m) ∧
      ∀ h ∈ (kept + m : Multiset Handle), q.get h = p.get h := by
  rw [Multiset.coe_eq_coe.mpr hperm, ← Multiset.coe_add, Multiset.add_assoc] at b
  obtain ⟨q, hq, b', hkept⟩ := releaseAll_heldOnce b
  exact ⟨q, by simp only [keep, hq], b', hkept⟩

/-- The entries at other positions stay, with their objects. -/
theorem eraseIndices_heldOnce (b : p.HeldOnce (l.handles + m)) (indices : List Nat) :
    ∃ l' q, l.eraseIndices p indices = ⟨.ok (), l', q⟩ ∧
      l'.handles = selectFrom (!indices.contains ·) 0 l.handles ∧
      q.HeldOnce (l'.handles + m) ∧
        ∀ h ∈ (l'.handles + m : Multiset Handle), q.get h = p.get h := by
  rcases eraseIndices_cases l p indices with ⟨rfl, heq⟩ | heq
  · have hall : selectFrom (!([] : List Nat).contains ·) 0 l.handles = l.handles :=
      selectFrom_of_forall (b := true) fun _ _ _ => rfl
    exact ⟨l, p, heq, hall.symm, b, fun _ _ => rfl⟩
  · obtain ⟨q, hrun, b', hkept⟩ :=
      keep_heldOnce b (selectFrom_append_perm (indices.contains ·) 0 _).symm
    exact ⟨_, q, heq.trans hrun, rfl, b', hkept⟩

end HandleList
end ScriptFront
