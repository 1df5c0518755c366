import ScriptFront.Proofs.Pool.Holds
import ScriptFront.Proofs.Pool.Refinement
import Mathlib.Algebra.BigOperators.Group.Finset.Basic
import Mathlib.Algebra.Group.Basic
import Mathlib.Data.Fintype.BigOperators

/-! Lists that share a pool with each other and with a client, which holds objects of its own. If
the client gives up no hold but its own, every count is the number of holds that there are. -/
namespace ScriptFront

/-- `held` are the holds of the client. -/
structure Sharing (α : Type) (room n : Nat) where
  pool : Pool α
  lists : Fin n → HandleList room
  held : Multiset Handle

inductive SharingOp (α : Type) (n : Nat)
  | client (op : PoolOp α)
  | list (i : Fin n) (op : ListOp α)
  | moveFrom (i j : Fin n) (start count : Nat)
  | swap (i j : Fin n)

namespace Sharing

variable {α : Type} {room n : Nat}

def start : Sharing α room n := ⟨.empty, fun _ => .empty, 0⟩

def setList (s : Sharing α room n) (i : Fin n) (l : HandleList room) : Sharing α room n :=
  { s with lists := Function.update s.lists i l }

/-- What the client holds after an operation of its own. -/
def heldAfter (held : Multiset Handle) : PoolEvent α → Multiset Handle
  | (.retain h, .count _) => h ::ₘ held
  | (.release h, .released _) => held.erase h
  | _ => held

def next (s : Sharing α room n) : SharingOp α n → Sharing α room n
  | .client op =>
    let (a, pool) := s.pool.step op
    { s with pool, held := heldAfter s.held (op, a) }
  | .list i op =>
    let t := (s.lists i).step s.pool op
    { s.setList i t.list with pool := t.pool }
  | .moveFrom i j start count =>
    if i = j then s
    else
      let (a, b) := (s.lists i).moveFrom (s.lists j) start count
      (s.setList i a).setList j b
  | .swap i j => { s with lists := s.lists ∘ Equiv.swap i j }

/-- The client gives up a hold of its own, or an object that nothing holds. A dead handle does no
harm. -/
def Allowed (s : Sharing α room n) : SharingOp α n → Prop
  | .client (.release h) => h ∈ s.held ∨ s.pool.find? h = none ∨
      s.pool.refs h = .ok 0 ∧ ∀ i, h ∉ (s.lists i).handles
  | _ => True

inductive Reachable : Sharing α room n → Prop
  | start : Reachable start
  | next {s : Sharing α room n} (r : Reachable s) (op : SharingOp α n) (allowed : s.Allowed op) :
      Reachable (s.next op)

/-- All holds: those of the client and one for each entry of a list. -/
def holds (s : Sharing α room n) : Multiset Handle :=
  s.held + ∑ i, ((s.lists i).handles : Multiset Handle)

theorem mem_holds {s : Sharing α room n} {h : Handle} :
    h ∈ s.holds ↔ h ∈ s.held ∨ ∃ i, h ∈ (s.lists i).handles := by
  simp [holds, Multiset.mem_sum]

theorem count_holds (s : Sharing α room n) (h : Handle) :
    s.holds.count h = s.held.count h + ∑ i, (s.lists i).handles.count h := by
  simp [holds, Multiset.count_sum']

@[simp] theorem lists_setList_self (s : Sharing α room n) (i : Fin n) (l : HandleList room) :
    (s.setList i l).lists i = l := Function.update_self ..

theorem lists_setList_of_ne (s : Sharing α room n) {i j : Fin n} (h : j ≠ i)
    (l : HandleList room) : (s.setList i l).lists j = s.lists j := Function.update_of_ne h ..

theorem setList_lists (s : Sharing α room n) (i : Fin n) : s.setList i (s.lists i) = s := by
  rw [setList, Function.update_eq_self]

theorem exists_holds_eq (s : Sharing α room n) (i : Fin n) :
    ∃ m, s.holds = (s.lists i).handles + m ∧ ∀ l, (s.setList i l).holds = l.handles + m := by
  refine ⟨s.held + ∑ j ∈ Finset.univ.erase i, ((s.lists j).handles : Multiset Handle), ?_, ?_⟩
  · rw [holds, ← Finset.add_sum_erase _ _ (Finset.mem_univ i), add_left_comm]
  · intro l
    have hrest : ∑ j ∈ Finset.univ.erase i, (((s.setList i l).lists j).handles : Multiset Handle) =
        ∑ j ∈ Finset.univ.erase i, ((s.lists j).handles : Multiset Handle) :=
      Finset.sum_congr rfl fun j hj => by rw [lists_setList_of_ne s (Finset.ne_of_mem_erase hj)]
    rw [holds, ← Finset.add_sum_erase _ _ (Finset.mem_univ i), add_left_comm, hrest,
      lists_setList_self]
    rfl

theorem holds_moveFrom (s : Sharing α room n) {i j : Fin n} (hij : i ≠ j) {a b : HandleList room}
    (hab : (a.handles ++ b.handles).Perm ((s.lists i).handles ++ (s.lists j).handles)) :
    ((s.setList i a).setList j b).holds = s.holds := by
  obtain ⟨m, hm, ha⟩ := s.exists_holds_eq i
  obtain ⟨m', hm', hb⟩ := (s.setList i a).exists_holds_eq j
  rw [ha, lists_setList_of_ne s (Ne.symm hij)] at hm'
  have hsum := Multiset.coe_eq_coe.mpr hab
  rw [← Multiset.coe_add, ← Multiset.coe_add] at hsum
  apply add_right_cancel (b := ((s.lists j).handles : Multiset Handle))
  calc ((s.setList i a).setList j b).holds + (s.lists j).handles
      = b.handles + ((s.lists j).handles + m') := by rw [hb, add_assoc, add_comm m']
    _ = (a.handles + b.handles) + m := by rw [← hm', add_left_comm, add_assoc]
    _ = s.holds + (s.lists j).handles := by rw [hsum, hm, add_right_comm]

theorem moveFrom_perm (l other : HandleList room) (start count : Nat) :
    ((l.moveFrom other start count).1.handles ++ (l.moveFrom other start count).2.handles).Perm
      (l.handles ++ other.handles) := by
  rw [HandleList.moveFrom]
  split
  · exact List.Perm.refl _
  · rw [HandleList.handles_withHandles, HandleList.handles_withHandles, List.append_assoc]
    exact (HandleList.drain_perm ..).symm.append_left _

theorem holds_swap (s : Sharing α room n) (i j : Fin n) :
    (s.next (.swap i j)).holds = s.holds := by
  unfold next holds
  congr 1
  exact Equiv.sum_comp (Equiv.swap i j) fun k => ((s.lists k).handles : Multiset Handle)

theorem holds_erase {s : Sharing α room n} {h : Handle}
    (hh : h ∈ s.held ∨ s.holds.count h = 0) :
    s.holds.erase h = s.held.erase h + ∑ i, ((s.lists i).handles : Multiset Handle) := by
  rcases hh with hh | hh
  · exact Multiset.erase_add_left_pos _ hh
  · have hnone := Multiset.count_eq_zero.mp hh
    have hheld : h ∉ s.held := fun hm => hnone (mem_holds.mpr (Or.inl hm))
    rw [Multiset.erase_of_notMem hnone, Multiset.erase_of_notMem hheld]
    rfl

theorem heldAfter_failed (held : Multiset Handle) (op : PoolOp α) (e : PoolError) :
    heldAfter held (op, .failed e) = held := by
  cases op <;> rfl

theorem heldBy_client {s : Sharing α room n} (b : s.pool.HeldBy s.holds) {op : PoolOp α}
    (allowed : s.Allowed (.client op)) :
    (s.next (.client op)).pool.HeldBy (s.next (.client op)).holds := by
  have hdead : ∀ {h}, op.needs? = some h → s.pool.find? h = none →
      (s.next (.client op)).pool.HeldBy (s.next (.client op)).holds := by
    intro h hop hx
    have hstep : s.next (.client op) = s := by
      simp only [next, Pool.step_of_dead hop hx, heldAfter_failed]
    rwa [hstep]
  cases op with
  | create v =>
    rcases b.create v with ⟨he, hpool, -⟩ | ⟨h, q, hq, b', -⟩
    · simp only [next, Pool.step, he]
      exact b.refused hpool
    · simp only [next, Pool.step, hq]
      exact b'
  | retain h =>
    cases hx : s.pool.find? h with
    | none => exact hdead rfl hx
    | some x =>
      rcases b.retain hx with ⟨he, -⟩ | ⟨q, hq, b'⟩
      · simpa only [next, Pool.step, Pool.answer, he, heldAfter_failed] using b
      · simp only [next, Pool.step, Pool.answer, hq]
        rw [holds, ← Multiset.cons_add] at b'
        exact b'
  | release h =>
    cases hx : s.pool.find? h with
    | none => exact hdead rfl hx
    | some x =>
      obtain ⟨v, q, hq, b'⟩ := b.release hx
      have hown : h ∈ s.held ∨ s.holds.count h = 0 := by
        rcases allowed with hh | hh | ⟨hh, -⟩
        · exact Or.inl hh
        · rw [hx] at hh
          cases hh
        · right
          rw [Pool.refs, Pool.find_of_find? hx] at hh
          rw [← b.refs h x hx]
          exact Except.ok.inj hh
      rw [holds_erase hown] at b'
      simp only [next, Pool.step, Pool.answer, hq]
      exact b'
  | set h v =>
    cases hx : s.pool.find? h with
    | none => exact hdead rfl hx
    | some x =>
      simp only [next, Pool.step, Pool.answer, Pool.set, Pool.find_of_find? hx]
      exact b.setObject hx _ (b.refs h x hx) fun _ _ => rfl
  | get h | refs h =>
    cases hx : s.pool.find? h with
    | none => exact hdead rfl hx
    | some x =>
      simp only [next, Pool.step, Pool.answer, Pool.get, Pool.refs, Pool.find_of_find? hx]
      exact b
  | contains h => exact b
  | shrink => exact b.shrink

/-- In every state that can be reached, the holds are exact. -/
theorem Reachable.heldBy {s : Sharing α room n} (r : Reachable s) : s.pool.HeldBy s.holds := by
  induction r with
  | start =>
    have hnone : (Sharing.start : Sharing α room n).holds = 0 := by
      simp [holds, Sharing.start, HandleList.empty]
    rw [hnone]
    exact Pool.heldBy_empty
  | @next s _ op allowed b =>
    cases op with
    | client op => exact heldBy_client b allowed
    | list i op =>
      obtain ⟨m, hm, hset⟩ := s.exists_holds_eq i
      have hholds : (s.next (.list i op)).holds =
          (((s.lists i).step s.pool op).list.handles : Multiset Handle) + m := hset _
      rw [hm] at b
      rw [hholds]
      exact (HandleList.step_sound b op).heldBy b
    | moveFrom i j first count =>
      by_cases hij : i = j
      · simpa only [Sharing.next, if_pos hij] using b
      · simp only [Sharing.next, if_neg hij]
        rw [holds_moveFrom s hij (moveFrom_perm ..)]
        exact b
    | swap i j =>
      rw [holds_swap]
      exact b

theorem next_of_refused {s : Sharing α room n} (b : s.pool.HeldBy s.holds) {i : Fin n}
    {op : ListOp α} {e : PoolError} (he : ((s.lists i).step s.pool op).result = .error e) :
    op.Refused s.pool e ∧
      ∃ q, s.next (.list i op) = { s with pool := q } ∧ Pool.Refuses s.pool q e := by
  obtain ⟨m, hm, -⟩ := s.exists_holds_eq i
  rw [hm] at b
  rcases HandleList.step_sound b op with ⟨e', q, hstep, hpool, hr⟩ | ⟨⟨a, ha⟩, -, -⟩
  · rw [hstep] at he
    obtain rfl := Except.error.inj he
    refine ⟨hr, q, ?_, hpool⟩
    simp only [next, hstep, setList_lists]
  · rw [ha] at he
    cases he

theorem result_of_stale {s : Sharing α room n} (b : s.pool.HeldBy s.holds) {i : Fin n}
    {op : ListOp α} {h : Handle} (hop : op.adds? = some h) (hx : s.pool.find? h = none) :
    ((s.lists i).step s.pool op).result = .error (.stale h) := by
  obtain ⟨m, hm, -⟩ := s.exists_holds_eq i
  rw [hm] at b
  rcases HandleList.step_sound b op with ⟨e, q, hstep, -, hr⟩ | ⟨-, -, ha⟩
  · rw [hstep]
    cases hr with
    | stale adds dead =>
      rw [hop] at adds
      rw [Option.some.inj adds]
    | overflow adds alive no_room =>
      rw [hop] at adds
      rw [← Option.some.inj adds, hx] at alive
      cases alive
    | full creates no_room => cases op <;> cases hop <;> cases creates
  · obtain ⟨x, hsome⟩ := ha h hop
    rw [hx] at hsome
    cases hsome

/-- Each entry of a list is alive, and each object is held as often as it is an entry and as the
client holds it. So a list operation can fail only where it is given a dead handle, or where a count
or the pool has no room, and then it changes nothing. A pool without room may keep new slots that it
cannot number, and no object notices. -/
theorem Reachable.counts_exact {s : Sharing α room n} (r : Reachable s) :
    (∀ i, ∀ h ∈ (s.lists i).handles, s.pool.contains h = true) ∧
    (∀ h, s.pool.contains h = true →
      s.pool.refs h = .ok (s.held.count h + ∑ i, (s.lists i).handles.count h)) ∧
    ∀ i (op : ListOp α),
      (∀ e, ((s.lists i).step s.pool op).result = .error e →
        op.Refused s.pool e ∧ (e ≠ .exhausted → s.next (.list i op) = s) ∧
          ∃ q, s.next (.list i op) = { s with pool := q } ∧ q.find? = s.pool.find?) ∧
      ∀ h, op.adds? = some h → s.pool.contains h = false →
        ((s.lists i).step s.pool op).result = .error (.stale h) := by
  have b := r.heldBy
  refine ⟨fun i h hh => ?_, fun h hh => ?_, fun i op => ⟨fun e he => ?_, fun h hop hx => ?_⟩⟩
  · obtain ⟨x, hx⟩ := b.alive h (mem_holds.mpr (Or.inr ⟨i, hh⟩))
    rw [Pool.contains, hx]
    rfl
  · obtain ⟨x, hx⟩ := Option.isSome_iff_exists.mp hh
    rw [Pool.refs, Pool.find_of_find? hx, ← count_holds, ← b.refs h x hx]
    rfl
  · obtain ⟨hr, q, hnext, hpool⟩ := next_of_refused b he
    refine ⟨hr, fun hne => ?_, q, hnext, hpool.find?⟩
    rw [hnext, hpool.same hne]
  · have hnone : s.pool.find? h = none := by simpa [Pool.contains] using hx
    exact result_of_stale b hop hnone

theorem counts_exact_moved :
    ∃ s : Sharing Nat 4 2, Reachable s ∧ s.pool.contains ⟨0, 0⟩ = true ∧
      s.pool.refs ⟨0, 0⟩ = .ok 3 ∧ s.held = {⟨0, 0⟩} ∧
      (s.lists 0).handles = [⟨0, 0⟩] ∧ (s.lists 1).handles = [⟨0, 0⟩] ∧
      s.pool.contains ⟨0, 1⟩ = false ∧
      ((s.lists 1).step s.pool (.replace ⟨0, 1⟩ 0)).result = .error (.stale ⟨0, 1⟩) := by
  have created : Reachable ((start : Sharing Nat 4 2).next (.client (.create 7))) :=
    .next .start _ trivial
  have held := (created.next (.client (.retain ⟨0, 0⟩)) trivial).next
    (.client (.retain ⟨0, 0⟩)) trivial
  have released := held.next (.client (.release ⟨0, 0⟩)) (Or.inl (by decide +kernel))
  have twice := (released.next (.list 0 (.add ⟨0, 0⟩)) trivial).next
    (.list 0 (.insert ⟨0, 0⟩ 9)) trivial
  have moved := twice.next (.moveFrom 1 0 1 5) trivial
  obtain ⟨-, counts, refuses⟩ := moved.counts_exact
  refine ⟨_, moved, by decide +kernel, ?_, by decide +kernel, by decide +kernel,
    by decide +kernel, by decide +kernel, ?_⟩
  · rw [counts ⟨0, 0⟩ (by decide +kernel)]
    decide +kernel
  · exact (refuses 1 (.replace ⟨0, 1⟩ 0)).2 ⟨0, 1⟩ rfl (by decide +kernel)

end Sharing
end ScriptFront
