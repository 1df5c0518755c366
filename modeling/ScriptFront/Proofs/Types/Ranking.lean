import ScriptFront.Types.Overload
import Mathlib.Algebra.Order.BigOperators.Group.List
import Mathlib.Algebra.Order.Ring.Nat
import Mathlib.Data.List.Forall2
import Mathlib.Data.List.Sort

/-! Ranks of casts and of functions. A function that fits better for some argument and worse for none
has the better rank, as long as all its arguments count. -/
namespace ScriptFront

namespace CastRules

/-! Numbers packed from bytes. -/

theorem packBytes_le {xs ys : List Nat} (h : List.Forall₂ (· ≤ ·) xs ys) (n : Nat) :
    packBytes n xs ≤ packBytes n ys := by
  induction h generalizing n with
  | nil => exact le_rfl
  | @cons x y xs ys hxy _ ih =>
    cases n with
    | zero => exact le_rfl
    | succ n => exact Nat.add_le_add (Nat.mul_le_mul_right _ hxy) (ih n)

theorem packBytes_lt {xs ys : List Nat} (h : List.Forall₂ (· ≤ ·) xs ys)
    (hsum : xs.sum < ys.sum) {n : Nat} (hlength : xs.length ≤ n) :
    packBytes n xs < packBytes n ys := by
  induction h generalizing n with
  | nil => exact absurd hsum (lt_irrefl _)
  | @cons x y xs ys hxy hrest ih =>
    obtain ⟨n, rfl⟩ : ∃ m, n = m + 1 := Nat.exists_eq_succ_of_ne_zero (by
      rintro rfl
      simp at hlength)
    simp only [List.sum_cons] at hsum
    simp only [List.length_cons] at hlength
    have hpow : 0 < Nat.pow 256 n := Nat.pow_pos (by decide)
    have hle : packBytes n xs ≤ packBytes n ys := packBytes_le hrest n
    rcases hxy.lt_or_eq with hlt | rfl
    · have hfirst : x * Nat.pow 256 n < y * Nat.pow 256 n := Nat.mul_lt_mul_of_pos_right hlt hpow
      exact Nat.add_lt_add_of_lt_of_le hfirst hle
    · have hlt : packBytes n xs < packBytes n ys := ih (by omega) (by omega)
      exact Nat.add_lt_add_left hlt _

theorem packBytes_eq_zero {xs : List Nat} (h : ∀ x ∈ xs, x = 0) (n : Nat) : packBytes n xs = 0 := by
  induction xs generalizing n with
  | nil => cases n <;> rfl
  | cons x xs ih =>
    obtain ⟨rfl, hrest⟩ := List.forall_mem_cons.mp h
    cases n with
    | zero => rfl
    | succ n => rw [packBytes, ih hrest n, Nat.zero_mul]

/-! Numbers sorted with the greatest first. -/

theorem mergeSort_eq (xs : List Nat) :
    xs.mergeSort (fun a b => b ≤ a) = xs.insertionSort (· ≥ ·) :=
  List.mergeSort_eq_insertionSort (· ≥ ·) xs

theorem orderedInsert_cons {x : Nat} {xs : List Nat} (h : (x :: xs).Pairwise (· ≥ ·)) :
    xs.orderedInsert (· ≥ ·) x = x :: xs := by
  cases xs with
  | nil => rfl
  | cons y ys =>
    have hxy : x ≥ y := List.rel_of_pairwise_cons h List.mem_cons_self
    rw [List.orderedInsert, if_pos hxy]

theorem orderedInsert_le {xs ys : List Nat} (h : List.Forall₂ (· ≤ ·) xs ys)
    (hxs : xs.Pairwise (· ≥ ·)) (hys : ys.Pairwise (· ≥ ·)) {a b : Nat} (hab : a ≤ b) :
    List.Forall₂ (· ≤ ·) (xs.orderedInsert (· ≥ ·) a) (ys.orderedInsert (· ≥ ·) b) := by
  induction h generalizing a b with
  | nil => exact .cons hab .nil
  | @cons x y xs ys hxy hrest ih =>
    have ih {a b : Nat} (hab : a ≤ b) := ih hxs.of_cons hys.of_cons hab
    rw [List.orderedInsert, List.orderedInsert]
    by_cases hax : a ≥ x
    · rw [if_pos hax]
      by_cases hby : b ≥ y
      · rw [if_pos hby]
        exact .cons hab (.cons hxy hrest)
      · rw [if_neg hby, ← orderedInsert_cons hxs]
        exact .cons (by omega) (ih (by omega))
    · rw [if_neg hax]
      by_cases hby : b ≥ y
      · rw [if_pos hby, ← orderedInsert_cons hys]
        exact .cons (by omega) (ih (by omega))
      · rw [if_neg hby]
        exact .cons hxy (ih hab)

theorem mergeSort_le {xs ys : List Nat} (h : List.Forall₂ (· ≤ ·) xs ys) :
    List.Forall₂ (· ≤ ·) (xs.mergeSort fun a b => b ≤ a) (ys.mergeSort fun a b => b ≤ a) := by
  rw [mergeSort_eq, mergeSort_eq]
  induction h with
  | nil => exact .nil
  | @cons x y xs ys hxy _ ih =>
    have hxs := List.pairwise_insertionSort (· ≥ ·) xs
    have hys := List.pairwise_insertionSort (· ≥ ·) ys
    exact orderedInsert_le ih hxs hys hxy

theorem sum_mergeSort (xs : List Nat) : (xs.mergeSort fun a b => b ≤ a).sum = xs.sum :=
  (List.mergeSort_perm xs _).sum_eq

theorem sum_lt_of_ne {xs ys : List Nat} (h : List.Forall₂ (· ≤ ·) xs ys) (hne : xs ≠ ys) :
    xs.sum < ys.sum := by
  induction h with
  | nil => exact absurd rfl hne
  | @cons x y xs ys hxy hrest ih =>
    have hle : xs.sum ≤ ys.sum := hrest.sum_le_sum
    rw [List.sum_cons, List.sum_cons]
    rcases hxy.lt_or_eq with hlt | rfl
    · omega
    · have hlt : xs.sum < ys.sum := ih fun heq => hne (congrArg _ heq)
      omega

theorem forall_eq_zero_of_packBytes {xs : List Nat} {n : Nat}
    (h : packBytes (n + 1) (xs.mergeSort fun a b => b ≤ a) = 0) : ∀ x ∈ xs, x = 0 := by
  have hsorted := List.pairwise_insertionSort (· ≥ ·) xs
  have hperm := List.mergeSort_perm xs fun a b => decide (b ≤ a)
  rw [mergeSort_eq] at h hperm
  intro x hx
  have hx : x ∈ xs.insertionSort (· ≥ ·) := hperm.mem_iff.mpr hx
  rcases hxs : xs.insertionSort (· ≥ ·) with _ | ⟨first, rest⟩
  · rw [hxs] at hx
    cases hx
  · rw [hxs] at h hsorted hx
    -- the greatest number comes first, with the highest weight
    have hpow : 0 < Nat.pow 256 n := Nat.pow_pos (by decide)
    have hproduct : first * Nat.pow 256 n = 0 := (Nat.add_eq_zero_iff.mp h).1
    have hfirst : first = 0 := by
      rcases Nat.mul_eq_zero.mp hproduct with hfirst | hzero
      · exact hfirst
      · omega
    rcases List.mem_cons.mp hx with rfl | hx
    · exact hfirst
    · have hle : first ≥ x := List.rel_of_pairwise_cons hsorted hx
      omega

/-! Casts. -/

variable {hash : NameHash} (r : CastRules hash)

theorem integerPriority_pos (s : Bool) (w : IntWidth) (role : IntegerRole) (s' : Bool)
    (w' : IntWidth) (role' : IntegerRole) : 0 < Cast.integerPriority s w role s' w' role' := by
  unfold Cast.integerPriority
  dsimp only
  split_ifs <;> omega

theorem priority_between_pos (source target : DataType) :
    0 < (between source target false).priority := by
  unfold between
  split
  · exact integerPriority_pos ..
  · exact Nat.add_pos_left (by decide) _
  · exact (by decide : 0 < Cast.impossible)
  · exact (by decide : 0 < Cast.floatToDoublePriority)
  · exact (by decide : 0 < Cast.impossible)

/-- Only a type itself is met without a cast that costs something. -/
theorem implicitPriority_eq_zero_iff (source target : TypeId) :
    r.implicitPriority source target = 0 ↔ source = target := by
  constructor
  · intro h
    by_contra hne
    have hpos : 0 < r.implicitPriority source target := by
      unfold implicitPriority cast
      rw [if_neg hne]
      dsimp only
      split_ifs
      · exact Nat.one_pos
      · exact (by decide : 0 < Cast.anyPriority)
      · split
        · exact priority_between_pos ..
        · exact (by decide : 0 < Cast.impossible)
    omega
  · rintro rfl
    rw [implicitPriority, cast, if_pos rfl]

theorem canImplicitly_self (id : TypeId) : r.canImplicitly id id = true := by
  rw [canImplicitly, cast, if_pos rfl]
  rfl

/-! Functions. -/

variable {arguments parameters others : List TypeId}

/-- The priorities of the casts to the parameters, in their order. -/
def priorities (arguments parameters : List TypeId) : List Nat :=
  (arguments.zip parameters).map fun (a, p) => r.implicitPriority a p

theorem functionPriority_eq (hlength : arguments.length = parameters.length) :
    r.functionPriority arguments parameters =
      packBytes 4 ((r.priorities arguments parameters).mergeSort fun a b => b ≤ a) := if_pos hlength

theorem functionPriority_self (arguments : List TypeId) :
    r.functionPriority arguments arguments = 0 := by
  rw [functionPriority_eq r rfl]
  refine packBytes_eq_zero (fun x hx => ?_) 4
  rw [List.mem_mergeSort, priorities, List.mem_map] at hx
  obtain ⟨⟨a, p⟩, hap, rfl⟩ := hx
  have heq : List.Forall₂ (· = ·) arguments arguments := List.forall₂_refl arguments
  exact (r.implicitPriority_eq_zero_iff a p).mpr ((List.forall₂_iff_zip.mp heq).2 hap)

/-- No function has the rank of the one that takes the arguments as they are. -/
theorem eq_of_functionPriority_eq_zero (h : r.functionPriority arguments parameters = 0) :
    parameters = arguments := by
  have hlength : arguments.length = parameters.length := by
    by_contra hne
    rw [functionPriority, if_neg hne] at h
    exact absurd h (by decide)
  rw [functionPriority_eq r hlength] at h
  have hzero := forall_eq_zero_of_packBytes h
  have heq : List.Forall₂ (· = ·) arguments parameters := by
    refine List.forall₂_iff_zip.mpr ⟨hlength, fun {a p} hap => ?_⟩
    exact (r.implicitPriority_eq_zero_iff a p).mp (hzero _ (List.mem_map_of_mem hap))
  exact (List.forall₂_eq_eq_eq ▸ heq : arguments = parameters).symm

/-- Where all priorities count, a function with no worse and some better ones has the better rank. -/
theorem functionPriority_lt (hothers : arguments.length = others.length)
    (hlength : arguments.length = parameters.length) (hfew : arguments.length ≤ 4)
    (hle : List.Forall₂ (· ≤ ·) (r.priorities arguments others) (r.priorities arguments parameters))
    (hne : r.priorities arguments others ≠ r.priorities arguments parameters) :
    r.functionPriority arguments others < r.functionPriority arguments parameters := by
  rw [functionPriority_eq r hothers, functionPriority_eq r hlength]
  have hsum := sum_lt_of_ne hle hne
  rw [← sum_mergeSort, ← sum_mergeSort (r.priorities arguments parameters)] at hsum
  refine packBytes_lt (mergeSort_le hle) hsum ?_
  rw [List.length_mergeSort, priorities, List.length_map, List.length_zip]
  omega

end CastRules
end ScriptFront
