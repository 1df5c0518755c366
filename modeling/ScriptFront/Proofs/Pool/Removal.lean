import ScriptFront.Proofs.Pool.HeldOnce
import ScriptFront.Proofs.Pool.Refinement

/-! Taking entries out of a list by their positions. Whatever the entries are, also handles that are
entered twice or are dead, the others stay, and each of those taken out is let go once, in their
order. -/
namespace ScriptFront

/-- A request to take entries out of a list. Positions past its end, and positions that are named
twice, do no harm. -/
inductive Removal
  | range (index count : Nat)
  | indices (indices : List Nat)
  | all
  deriving DecidableEq, Repr

namespace Removal

/-- The request names the position. -/
def asks : Removal → Nat → Bool
  | range index count, i => index ≤ i && i < index + count
  | indices is, i => is.contains i
  | all, _ => true

/-- The entries that stay, in their order. -/
def kept (r : Removal) (hs : List Handle) : List Handle :=
  (hs.zipIdx.filter (!r.asks ·.2)).map Prod.fst

def taken (r : Removal) (hs : List Handle) : List Handle :=
  (hs.zipIdx.filter (r.asks ·.2)).map Prod.fst

end Removal

def PoolAnswer.error? {α : Type} : PoolAnswer α → Option PoolError
  | failed e => some e
  | _ => none

namespace HandleList

variable {room : Nat} {α : Type}

def remove (l : HandleList room) (pool : Pool α) : Removal → ListStep room α Unit
  | .range index count => l.eraseRange pool index count
  | .indices is => l.eraseIndices pool is
  | .all => l.clear pool

theorem selectFrom_eq (f : Nat → Bool) (i : Nat) (hs : List Handle) :
    selectFrom f i hs = ((hs.zipIdx i).filter (f ·.2)).map Prod.fst := by
  have h := map_selectFrom id f i hs
  rwa [List.map_id, List.map_id] at h

/-- A range cuts the list into what stands before it, in it and behind it. -/
theorem selectFrom_range {f : Nat → Bool} {index count : Nat} {b : Bool}
    (hin : ∀ k, index ≤ k → k < index + count → f k = b)
    (hout : ∀ k, k < index ∨ index + count ≤ k → f k = !b) (hs : List Handle) :
    selectFrom f 0 hs = if b then (hs.drop index).take count
      else hs.take index ++ (hs.drop index).drop count := by
  have hbefore : selectFrom f 0 (hs.take index) = if !b then hs.take index else [] := by
    apply selectFrom_of_forall
    intro k _ hk
    rw [List.length_take] at hk
    exact hout k (by omega)
  have hinside : selectFrom f (hs.take index).length ((hs.drop index).take count) =
      if b then (hs.drop index).take count else [] := by
    apply selectFrom_of_forall
    intro k hlo hk
    simp only [List.length_take, List.length_drop] at hlo hk
    exact hin k (by omega) (by omega)
  have hbehind : selectFrom f ((hs.take index).length + ((hs.drop index).take count).length)
      ((hs.drop index).drop count) = if !b then (hs.drop index).drop count else [] := by
    apply selectFrom_of_forall
    intro k hlo hk
    simp only [List.length_take, List.length_drop] at hlo hk
    exact hout k (by omega)
  calc selectFrom f 0 hs
      = selectFrom f 0 (hs.take index ++
          ((hs.drop index).take count ++ (hs.drop index).drop count)) := by
        rw [List.take_append_drop, List.take_append_drop]
    _ = _ := by
        rw [selectFrom_append, selectFrom_append, Nat.zero_add, hbefore, hinside, hbehind]
        cases b <;> simp

/-- Letting all handles go is to release them one after the other. -/
theorem releaseAll_eq_run (p : Pool α) (hs : List Handle) :
    (releaseAll p hs).2 = (p.run (hs.map .release)).2 ∧
      ∀ e, (releaseAll p hs).1 = .error e ↔
        (p.run (hs.map .release)).1.findSome? (·.2.error?) = some e := by
  induction hs generalizing p with
  | nil => exact ⟨rfl, fun e => by constructor <;> intro h <;> cases h⟩
  | cons h hs ih =>
    rw [releaseAll, List.map_cons, Pool.run, Pool.step]
    cases hr : p.release h with
    | ok r => exact ih r.2
    | error e' =>
      refine ⟨(ih p).1, fun e => ?_⟩
      show Except.error e' = .error e ↔ some e' = some e
      rw [Except.error.injEq, Option.some.injEq]

theorem kept_eq (r : Removal) (hs : List Handle) : r.kept hs = selectFrom (!r.asks ·) 0 hs :=
  (selectFrom_eq (!r.asks ·) 0 hs).symm

theorem taken_eq (r : Removal) (hs : List Handle) : r.taken hs = selectFrom r.asks 0 hs :=
  (selectFrom_eq r.asks 0 hs).symm

/-- A range names the entries between its ends. -/
theorem kept_taken_range (index count : Nat) (hs : List Handle) :
    (Removal.range index count).kept hs = hs.take index ++ (hs.drop index).drop count ∧
      (Removal.range index count).taken hs = (hs.drop index).take count := by
  have hin : ∀ k, index ≤ k → k < index + count → (Removal.range index count).asks k = true := by
    intro k hlo hhi
    simp [Removal.asks, hlo, hhi]
  have hout : ∀ k, k < index ∨ index + count ≤ k →
      (Removal.range index count).asks k = false := by
    intro k hk
    simp only [Removal.asks, Bool.and_eq_false_iff, decide_eq_false_iff_not]
    omega
  have hin' := fun k hlo hhi => congrArg (!·) (hin k hlo hhi)
  have hout' := fun k hk => congrArg (!·) (hout k hk)
  rw [kept_eq, taken_eq, selectFrom_range (b := false) hin' hout',
    selectFrom_range (b := true) hin hout]
  exact ⟨rfl, rfl⟩

/-- What a removal keeps, and what it lets go. -/
theorem remove_eq {l : HandleList room} (hlength : l.handles.length < UInt64.size) (p : Pool α)
    (r : Removal) :
    (l.remove p r).list.handles = r.kept l.handles ∧
      ((l.remove p r).result, (l.remove p r).pool) = releaseAll p (r.taken l.handles) := by
  cases r with
  | range index count =>
    obtain ⟨hkept, htaken⟩ := kept_taken_range index count l.handles
    rw [hkept, htaken, remove]
    rcases eraseRange_cases l p index count with ⟨hend, heq⟩ | heq
    · rw [heq, List.take_of_length_le hend, List.drop_of_length_le hend, List.take_nil,
        List.drop_nil, List.append_nil]
      exact ⟨rfl, rfl⟩
    · rw [drain_saturatingAdd hlength] at heq
      rw [heq]
      exact ⟨rfl, rfl⟩
  | indices is =>
    rw [kept_eq, taken_eq, remove]
    rcases eraseIndices_cases l p is with ⟨rfl, heq⟩ | heq <;> rw [heq]
    · have hnone : selectFrom (Removal.indices []).asks 0 l.handles = [] :=
        selectFrom_of_forall (b := false) fun _ _ _ => rfl
      have hall : selectFrom (!(Removal.indices []).asks ·) 0 l.handles = l.handles :=
        selectFrom_of_forall (b := true) fun _ _ _ => rfl
      rw [hnone, hall]
      exact ⟨rfl, rfl⟩
    · exact ⟨rfl, rfl⟩
  | all =>
    have hnone : selectFrom (!Removal.all.asks ·) 0 l.handles = [] :=
      selectFrom_of_forall (b := false) fun _ _ _ => rfl
    have hall : selectFrom Removal.all.asks 0 l.handles = l.handles :=
      selectFrom_of_forall (b := true) fun _ _ _ => rfl
    rw [kept_eq, taken_eq, hnone, hall]
    exact ⟨rfl, rfl⟩

/-- A removal keeps the entries at the positions that it does not name, in their order. The pool is as
after the release of each of the others, one after the other, and the first of these releases that
fails is the failure of the removal. The positions of a list fit in 64 bits. -/
theorem remove_releases {l : HandleList room} (hlength : l.handles.length < UInt64.size)
    (p : Pool α) (r : Removal) :
    let (events, q) := p.run ((r.taken l.handles).map .release)
    (l.remove p r).list.handles = r.kept l.handles ∧ (l.remove p r).pool = q ∧
      ∀ e, (l.remove p r).result = .error e ↔ events.findSome? (·.2.error?) = some e := by
  obtain ⟨hlist, hrelease⟩ := remove_eq hlength p r
  obtain ⟨hpool, hresult⟩ := releaseAll_eq_run p (r.taken l.handles)
  rw [← hrelease] at hpool hresult
  exact ⟨hlist, hpool, hresult⟩

/-- An object that is held once but entered twice dies by its first release, and the second fails. A
range up to the greatest position ends with the list. -/
theorem remove_releases_stale :
    let p := ((Pool.empty : Pool Nat).run [.create 7, .create 8, .retain ⟨0, 0⟩]).2
    let l : HandleList 4 := ⟨[⟨0, 0⟩, ⟨0, 0⟩, ⟨1, 0⟩], false⟩
    l.handles.length < UInt64.size ∧
      (l.remove p (.indices [9, 1, 0, 1])).list.handles = [⟨1, 0⟩] ∧
      (l.remove p (.indices [9, 1, 0, 1])).result = .error (.stale ⟨0, 0⟩) ∧
      (l.remove p (.indices [9, 1, 0, 1])).pool.live = 1 ∧
      (l.remove p (.range 1 (UInt64.size - 1))).list.handles = [⟨0, 0⟩] := by
  intro p l
  have hlength : l.handles.length < UInt64.size := by decide
  obtain ⟨hlist, hpool, hresult⟩ := remove_releases hlength p (.indices [9, 1, 0, 1])
  obtain ⟨hrange, -, -⟩ := remove_releases hlength p (.range 1 (UInt64.size - 1))
  refine ⟨hlength, hlist.trans (by decide +kernel), (hresult _).mpr (by decide +kernel), ?_,
    hrange.trans (by decide +kernel)⟩
  rw [hpool]
  decide +kernel

end HandleList
end ScriptFront
