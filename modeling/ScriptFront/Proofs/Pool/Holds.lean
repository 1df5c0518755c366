import ScriptFront.Proofs.Pool.Compaction
import ScriptFront.Proofs.Pool.Ledger
import ScriptFront.Proofs.Pool.WellFormed
import Mathlib.Data.List.Perm.Basic
import Mathlib.Data.Multiset.AddSub
import Mathlib.Data.Multiset.Count

/-! Who holds the objects of a pool. `HeldBy` says that every object is held as often as its handle
occurs among the holds, so no hold is on a dead object. A list holds each of its entries once. -/
namespace ScriptFront

variable {α : Type}

namespace Pool

/-- The holds on the objects of a pool are those of `m`. -/
structure HeldBy (p : Pool α) (m : Multiset Handle) : Prop where
  wellFormed : p.WellFormed
  refs : ∀ h x, p.find? h = some x → x.refs = m.count h
  alive : ∀ h ∈ m, ∃ x, p.find? h = some x

theorem heldBy_empty : (empty : Pool α).HeldBy 0 :=
  ⟨wellFormed_empty, by simp [find?, slot?, empty], by simp⟩

variable {p : Pool α} {m : Multiset Handle}

theorem HeldBy.replace (b : p.HeldBy m) {q : Pool α} {i : Nat} {s t : Slot α}
    (r : Replaces p q i s t) (w : q.WellFormed)
    (ht : t.generation = s.generation ∨ t.object = none) {m' : Multiset Handle}
    (hobj : t.object.elim 0 Counted.refs = m'.count ⟨i, s.generation⟩)
    (hne : t.object = none → ⟨i, s.generation⟩ ∉ m')
    (hm : ∀ h, h ≠ ⟨i, s.generation⟩ → m'.count h = m.count h) : q.HeldBy m' := by
  have hfind := r.find? ht
  refine ⟨w, fun h x hx => ?_, fun h hh => ?_⟩
  · rw [hfind] at hx
    by_cases he : h = ⟨i, s.generation⟩
    · subst he
      rw [Function.update_self] at hx
      rw [← hobj, hx]; rfl
    · rw [Function.update_of_ne he] at hx
      rw [hm h he, b.refs h x hx]
  · rw [hfind]
    by_cases he : h = ⟨i, s.generation⟩
    · subst he
      rw [Function.update_self]
      exact Option.ne_none_iff_exists'.mp fun hnone => hne hnone hh
    · rw [Function.update_of_ne he]
      refine b.alive h (Multiset.count_pos.mp ?_)
      rw [← hm h he]
      exact Multiset.count_pos.mpr hh

theorem HeldBy.setObject (b : p.HeldBy m) {h : Handle} {x : Counted α} (hx : p.find? h = some x)
    (y : Counted α) {m' : Multiset Handle} (hy : y.refs = m'.count h)
    (hm : ∀ h', h' ≠ h → m'.count h' = m.count h') : (p.setObject h y).HeldBy m' := by
  have r := replaces_setObject hx y
  exact b.replace r (r.wellFormed_same b.wellFormed (by simp) (by simp) rfl) (Or.inl rfl) hy
    (by simp) hm

theorem HeldBy.retain (b : p.HeldBy m) {h : Handle} {x : Counted α} (hx : p.find? h = some x) :
    (p.retain h = .error (.countOverflow h.index) ∧ maxRefs ≤ x.refs) ∨
      ∃ q, p.retain h = .ok (x.refs + 1, q) ∧ q.HeldBy (h ::ₘ m) := by
  rw [retain_of_find? hx]
  by_cases hr : x.refs < maxRefs
  · refine Or.inr ⟨_, if_pos hr, b.setObject hx _ ?_ fun h' hne => ?_⟩
    · rw [Multiset.count_cons_self, ← b.refs h x hx]
    · exact Multiset.count_cons_of_ne hne m
  · exact Or.inl ⟨if_neg hr, Nat.le_of_not_lt hr⟩

/-- One hold is given up, if there is one. -/
theorem HeldBy.release (b : p.HeldBy m) {h : Handle} {x : Counted α} (hx : p.find? h = some x) :
    ∃ v q, p.release h = .ok (v, q) ∧ q.HeldBy (m.erase h) := by
  have hrefs := b.refs h x hx
  have hself := Multiset.count_erase_self h m
  have hne : ∀ h', h' ≠ h → (m.erase h).count h' = m.count h' :=
    fun h' hne => Multiset.count_erase_of_ne hne m
  rw [release_of_find? hx]
  by_cases hr : 2 ≤ x.refs
  · refine ⟨none, _, if_pos hr, b.setObject hx _ ?_ hne⟩
    rw [hself, ← hrefs]
  · have r := replaces_destroy hx
    have hzero : (m.erase h).count h = 0 := by omega
    exact ⟨some x.value, _, if_neg hr, b.replace r
      (r.wellFormed_empty b.wellFormed (by simp) rfl rfl) (Or.inr rfl) hzero.symm
      (fun _ => Multiset.count_eq_zero.mp hzero) hne⟩

theorem HeldBy.release_cons {h : Handle} (b : p.HeldBy (h ::ₘ m)) :
    ∃ v q, p.release h = .ok (v, q) ∧ q.HeldBy m := by
  obtain ⟨x, hx⟩ := b.alive h (Multiset.mem_cons_self h m)
  have := b.release hx
  rwa [Multiset.erase_cons_head] at this

theorem HeldBy.congr_find? (b : p.HeldBy m) {q : Pool α} (w : q.WellFormed)
    (hq : q.find? = p.find?) : q.HeldBy m :=
  ⟨w, hq ▸ b.refs, hq ▸ b.alive⟩

theorem HeldBy.shrink (b : p.HeldBy m) : p.shrink.2.HeldBy m :=
  b.congr_find? (wellFormed_shrink b.wellFormed) (find?_shrink b.wellFormed.counts)

/-- What a refusal leaves. Where there is no room for an object, a page may have got slots, and no
object notices. Any other refusal leaves the pool as it is. -/
structure Refuses (p q : Pool α) (e : PoolError) : Prop where
  wellFormed : p.WellFormed → q.WellFormed
  find? : q.find? = p.find?
  same : e ≠ .exhausted → q = p

theorem Refuses.refl (p : Pool α) (e : PoolError) : Refuses p p e := ⟨id, rfl, fun _ => rfl⟩

theorem HeldBy.refused (b : p.HeldBy m) {q : Pool α} {e : PoolError} (r : Refuses p q e) :
    q.HeldBy m := b.congr_find? (r.wellFormed b.wellFormed) r.find?

theorem Overflows.refuses {q : Pool α} {k : Nat} (o : Overflows p q k) :
    Refuses p q .exhausted := ⟨o.wellFormed, o.find?, fun h => absurd rfl h⟩

/-- Nothing holds a new object. -/
theorem HeldBy.create (b : p.HeldBy m) (v : α) :
    (p.create v = (.error .exhausted, p.grow.2) ∧ Refuses p p.grow.2 .exhausted ∧ p.Full) ∨
      ∃ h q, p.create v = (.ok h, q) ∧ q.HeldBy m ∧ q.find? h = some ⟨0, v⟩ := by
  rcases create_cases b.wellFormed v with ⟨he, -, ⟨k, o⟩, hfull⟩ | ⟨i, g, p', q, hq, hp', r, w⟩
  · exact Or.inl ⟨he, o.refuses, hfull⟩
  · have b' : p'.HeldBy m := by
      rcases hp' with rfl | ⟨-, gr⟩
      · exact b
      · exact b.congr_find? (gr.wellFormed b.wellFormed) gr.find?
    have hdead : p'.find? ⟨i, g⟩ = none := by
      unfold Pool.find?
      rw [r.before]
      simp
    have hnot : ⟨i, g⟩ ∉ m := by
      intro hm
      obtain ⟨x, hx⟩ := b'.alive _ hm
      rw [hdead] at hx
      cases hx
    refine Or.inr ⟨_, q, hq, b'.replace r w (Or.inl rfl) ?_ (by simp) fun _ _ => rfl, ?_⟩
    · exact (Multiset.count_eq_zero_of_notMem hnot).symm
    · rw [r.find? (Or.inl rfl)]
      exact Function.update_self ..

end Pool

inductive ListOp (α : Type)
  | add (h : Handle)
  | insert (h : Handle) (index : Nat)
  | createBack (value : α)
  | createAt (value : α) (index : Nat)
  | replace (h : Handle) (index : Nat)
  | erase (index : Nat)
  | eraseRange (index count : Nat)
  | eraseIndices (indices : List Nat)
  | clear
  deriving DecidableEq, Repr

/-- The handle that an operation puts in the list, if it is given one. -/
def ListOp.adds? : ListOp α → Option Handle
  | add h | insert h _ | replace h _ => some h
  | _ => none

/-- The value that an operation makes an object of. -/
def ListOp.creates? : ListOp α → Option α
  | createBack value | createAt value _ => some value
  | _ => none

/-- Why an operation on a list fails. -/
inductive ListOp.Refused (op : ListOp α) (p : Pool α) : PoolError → Prop
  | stale {h : Handle} (adds : op.adds? = some h) (dead : p.find? h = none) :
      Refused op p (.stale h)
  | overflow {h : Handle} {x : Counted α} (adds : op.adds? = some h) (alive : p.find? h = some x)
      (no_room : Pool.maxRefs ≤ x.refs) : Refused op p (.countOverflow h.index)
  | full {value : α} (creates : op.creates? = some value) (no_room : p.Full) :
      Refused op p .exhausted

namespace ListStep

variable {room : Nat} {β γ : Type}

def map (s : ListStep room α β) (f : β → γ) : ListStep room α γ :=
  ⟨s.result.map f, s.list, s.pool⟩

/-- The step of an operation on `l` is refused, or the list holds each of its entries once after it,
as `m` are the holds of all others. -/
def Sound (s : ListStep room α β) (op : ListOp α) (l : HandleList room) (p : Pool α)
    (m : Multiset Handle) : Prop :=
  (∃ e q, s = ⟨.error e, l, q⟩ ∧ Pool.Refuses p q e ∧ op.Refused p e) ∨
    ((∃ b, s.result = .ok b) ∧ s.pool.HeldBy (s.list.handles + m) ∧
      ∀ h, op.adds? = some h → ∃ x, p.find? h = some x)

theorem Sound.map {s : ListStep room α β} {op : ListOp α} {l : HandleList room} {p : Pool α}
    {m : Multiset Handle} (hs : s.Sound op l p m) (f : β → γ) : (s.map f).Sound op l p m := by
  rcases hs with ⟨e, q, rfl, he⟩ | ⟨⟨b, hb⟩, hh, ha⟩
  · exact Or.inl ⟨e, q, rfl, he⟩
  · exact Or.inr ⟨⟨f b, by simp [ListStep.map, hb, Except.map]⟩, hh, ha⟩

/-- After a step of a list, refused or not, the list holds its entries, and all others what they
held. -/
theorem Sound.heldBy {s : ListStep room α β} {op : ListOp α} {l : HandleList room} {p : Pool α}
    {m : Multiset Handle} (hs : s.Sound op l p m) (b : p.HeldBy (l.handles + m)) :
    s.pool.HeldBy (s.list.handles + m) := by
  rcases hs with ⟨e, q, rfl, hpool, -⟩ | ⟨-, hheld, -⟩
  · exact b.refused hpool
  · exact hheld

end ListStep

namespace HandleList

variable {room : Nat} {p : Pool α} {m : Multiset Handle} {l : HandleList room}

def step (l : HandleList room) (p : Pool α) : ListOp α → ListStep room α (PoolAnswer α)
  | .add h => (l.add p h).map fun _ => .done
  | .insert h index => (l.insert p h index).map fun _ => .done
  | .createBack value => (l.createBack p value).map .made
  | .createAt value index => (l.createAt p value index).map .made
  | .replace h index => (l.replace p h index).map .released
  | .erase index => (l.erase p index).map .released
  | .eraseRange index count => (l.eraseRange p index count).map fun _ => .done
  | .eraseIndices indices => (l.eraseIndices p indices).map fun _ => .done
  | .clear => (l.clear p).map fun _ => .done

theorem hold_cases (l : HandleList room) (b : p.HeldBy m) {op : ListOp α} {h : Handle}
    (hop : op.adds? = some h) (place : List Handle → List Handle) :
    (∃ e, l.hold p h place = ⟨.error e, l, p⟩ ∧ op.Refused p e) ∨
      ∃ x q, p.find? h = some x ∧ l.hold p h place = ⟨.ok (), l.withHandles (place l.handles), q⟩ ∧
        q.HeldBy (h ::ₘ m) := by
  unfold hold
  cases hx : p.find? h with
  | none =>
    rw [Pool.retain_of_find?_eq_none hx]
    exact Or.inl ⟨_, rfl, .stale hop hx⟩
  | some x =>
    rcases b.retain hx with ⟨he, hr⟩ | ⟨q, hq, b'⟩
    · rw [he]
      exact Or.inl ⟨_, rfl, .overflow hop hx hr⟩
    · rw [hq]
      exact Or.inr ⟨x, q, rfl, rfl, b'⟩

theorem hold_sound (b : p.HeldBy (l.handles + m)) {op : ListOp α} {h : Handle}
    (hop : op.adds? = some h) {place : List Handle → List Handle}
    (hperm : (place l.handles).Perm (h :: l.handles)) : (l.hold p h place).Sound op l p m := by
  rcases hold_cases l b hop place with ⟨e, he, hr⟩ | ⟨x, q, hx, hq, b'⟩
  · exact Or.inl ⟨e, p, he, .refl p e, hr⟩
  · rw [hq]
    refine Or.inr ⟨⟨(), rfl⟩, ?_, fun h' hh => ?_⟩
    · rwa [handles_withHandles, Multiset.coe_eq_coe.mpr hperm, ← Multiset.cons_coe,
        Multiset.cons_add]
    · rw [hop] at hh
      exact ⟨x, Option.some.inj hh ▸ hx⟩

theorem letGo_cases (l : HandleList room) {h : Handle} (b : p.HeldBy (h ::ₘ m)) :
    ∃ v q, l.letGo p h = ⟨.ok v, l, q⟩ ∧ q.HeldBy m := by
  obtain ⟨v, q, hq, b'⟩ := b.release_cons
  exact ⟨v, q, by rw [letGo, hq], b'⟩

theorem releaseAll_cases {hs : List Handle} (b : p.HeldBy (hs + m)) :
    ∃ q, releaseAll p hs = (.ok (), q) ∧ q.HeldBy m := by
  induction hs generalizing p with
  | nil => exact ⟨p, rfl, by simpa using b⟩
  | cons h hs ih =>
    rw [← Multiset.cons_coe, Multiset.cons_add] at b
    obtain ⟨v, q, hq, b'⟩ := b.release_cons
    rw [releaseAll, hq]
    exact ih b'

theorem keep_sound (b : p.HeldBy (l.handles + m)) {op : ListOp α} (hop : op.adds? = none)
    {kept gone : List Handle} (hperm : l.handles.Perm (gone ++ kept)) :
    (l.keep p kept gone).Sound op l p m := by
  rw [Multiset.coe_eq_coe.mpr hperm, ← Multiset.coe_add, Multiset.add_assoc] at b
  obtain ⟨q, hq, b'⟩ := releaseAll_cases b
  refine Or.inr ⟨⟨(), ?_⟩, ?_, by simp [hop]⟩
  · simp only [keep, hq]
  · simpa only [keep, hq, handles_withHandles] using b'

theorem insert_sound (b : p.HeldBy (l.handles + m)) {op : ListOp α} {h : Handle} {index : Nat}
    (hop : op.adds? = some h) : (l.insert p h index).Sound op l p m := by
  refine hold_sound b hop ?_
  refine List.perm_middle.trans ?_
  rw [List.take_append_drop]

/-- The old entry is let go only after the new one is held. -/
theorem replace_sound (b : p.HeldBy (l.handles + m)) {op : ListOp α} {h : Handle} {index : Nat}
    (hop : op.adds? = some h) : (l.replace p h index).Sound op l p m := by
  unfold replace
  rcases hold_cases l b hop _ with ⟨e, he, hr⟩ | ⟨x, q, hx, hq, b'⟩
  · rw [he]
    exact Or.inl ⟨e, p, by cases l.handles[index]? <;> rfl, .refl p e, hr⟩
  have hadds : ∀ h', op.adds? = some h' → ∃ x, p.find? h' = some x := by
    intro h' hh
    rw [hop] at hh
    exact ⟨x, Option.some.inj hh ▸ hx⟩
  rw [hq, ← Multiset.cons_add, Multiset.cons_coe] at *
  cases hi : l.handles[index]? with
  | none =>
    have hlen : ¬index < l.handles.length := by simpa using hi
    refine Or.inr ⟨⟨none, rfl⟩, ?_, hadds⟩
    rw [if_neg hlen, handles_withHandles, Multiset.coe_eq_coe.mpr List.perm_append_comm]
    exact b'
  | some old =>
    obtain ⟨hlen, rfl⟩ := List.getElem?_eq_some_iff.mp hi
    have hperm : (h :: l.handles).Perm (l.handles[index] :: l.handles.set index h) := by
      refine ((List.getElem_cons_eraseIdx_perm hlen).symm.cons h).trans ?_
      exact (List.Perm.swap ..).trans ((List.set_perm_cons_eraseIdx hlen h).symm.cons _)
    rw [Multiset.coe_eq_coe.mpr hperm, ← Multiset.cons_coe, Multiset.cons_add] at b'
    rw [if_pos hlen]
    obtain ⟨v, q', hq', b''⟩ := letGo_cases (l.withHandles (l.handles.set index h)) b'
    show ListStep.Sound (letGo _ q l.handles[index]) op l p m
    rw [hq']
    exact Or.inr ⟨⟨v, rfl⟩, b'', hadds⟩

theorem erase_sound (b : p.HeldBy (l.handles + m)) {op : ListOp α} {index : Nat}
    (hop : op.adds? = none) : (l.erase p index).Sound op l p m := by
  unfold erase
  have hadds : ∀ h, op.adds? = some h → ∃ x, p.find? h = some x := by simp [hop]
  cases hi : l.handles[index]? with
  | none => exact Or.inr ⟨⟨none, rfl⟩, b, hadds⟩
  | some h =>
    obtain ⟨hlen, rfl⟩ := List.getElem?_eq_some_iff.mp hi
    rw [Multiset.coe_eq_coe.mpr (List.getElem_cons_eraseIdx_perm hlen).symm, ← Multiset.cons_coe,
      Multiset.cons_add] at b
    obtain ⟨v, q, hq, b'⟩ := letGo_cases (l.withHandles (l.handles.eraseIdx index)) b
    show ListStep.Sound (letGo _ p l.handles[index]) op l p m
    rw [hq]
    exact Or.inr ⟨⟨v, rfl⟩, b', hadds⟩

/-- An operation that changes nothing is sound where it puts nothing in the list. -/
theorem unchanged_sound (b : p.HeldBy (l.handles + m)) {op : ListOp α} (hop : op.adds? = none) :
    (⟨.ok (), l, p⟩ : ListStep room α Unit).Sound op l p m :=
  Or.inr ⟨⟨(), rfl⟩, b, by simp [hop]⟩

theorem eraseRange_sound (b : p.HeldBy (l.handles + m)) {op : ListOp α} (hop : op.adds? = none)
    (index count : Nat) : (l.eraseRange p index count).Sound op l p m := by
  rcases eraseRange_cases l p index count with ⟨-, heq⟩ | heq <;> rw [heq]
  · exact unchanged_sound b hop
  · exact keep_sound b hop (drain_perm ..)

theorem eraseIndices_sound (b : p.HeldBy (l.handles + m)) {op : ListOp α} (hop : op.adds? = none)
    (indices : List Nat) : (l.eraseIndices p indices).Sound op l p m := by
  rcases eraseIndices_cases l p indices with ⟨-, heq⟩ | heq <;> rw [heq]
  · exact unchanged_sound b hop
  · exact keep_sound b hop (selectFrom_append_perm (indices.contains ·) 0 _).symm

/-- A new object can be held: nothing holds it yet. -/
theorem createWith_sound (b : p.HeldBy (l.handles + m)) {op : ListOp α} {v : α}
    (hop : op.creates? = some v) (hadds : op.adds? = none)
    {place : HandleList room → Pool α → Handle → ListStep room α Unit}
    (hplace : ∀ {q h op'}, q.HeldBy (l.handles + m) → op'.adds? = some h →
      (place l q h).Sound op' l q m) : (l.createWith p v place).Sound op l p m := by
  unfold createWith
  rcases b.create v with ⟨he, hpool, hfull⟩ | ⟨h, q, hq, b', hnew⟩
  · rw [he]
    exact Or.inl ⟨_, _, rfl, hpool, .full hop hfull⟩
  · rw [hq]
    rcases @hplace q h (.add h) b' rfl with ⟨e, -, -, -, hr⟩ | ⟨⟨⟨⟩, hok⟩, hh, -⟩
    · cases hr with
      | stale adds dead =>
        cases adds
        rw [hnew] at dead
        cases dead
      | overflow adds alive no_room =>
        cases adds
        rw [hnew] at alive
        cases alive
        have hzero : Pool.maxRefs ≤ 0 := no_room
        exact absurd hzero (by decide)
      | full creates => cases creates
    · exact Or.inr ⟨⟨h, by simp only [hok]; rfl⟩, hh, by simp [hadds]⟩

/-- No operation on a list loses a hold or keeps one too many. -/
theorem step_sound (b : p.HeldBy (l.handles + m)) (op : ListOp α) :
    (l.step p op).Sound op l p m := by
  cases op with
  | add h => exact (hold_sound b rfl List.perm_append_comm).map _
  | insert h index => exact (insert_sound b rfl).map _
  | createBack v =>
    exact (createWith_sound b rfl rfl fun b' hop => hold_sound b' hop List.perm_append_comm).map _
  | createAt v index =>
    exact (createWith_sound b rfl rfl fun b' hop => insert_sound b' hop).map _
  | replace h index => exact (replace_sound b rfl).map _
  | erase index => exact (erase_sound b rfl).map _
  | eraseRange index count => exact (eraseRange_sound b rfl index count).map _
  | eraseIndices indices => exact (eraseIndices_sound b rfl indices).map _
  | clear =>
    obtain ⟨q, hq, b'⟩ := releaseAll_cases b
    have hclear : l.clear p = ⟨.ok (), empty, q⟩ := by simp only [clear, hq]
    refine ListStep.Sound.map (Or.inr ?_) _
    rw [hclear]
    exact ⟨⟨(), rfl⟩, by simpa [empty] using b', by simp [ListOp.adds?]⟩

end HandleList
end ScriptFront
