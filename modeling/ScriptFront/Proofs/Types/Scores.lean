import ScriptFront.Proofs.Types.Signature

/-! The scores of functions. Main statement: a score tells whether the function takes the arguments,
and it depends on the four worst casts alone, whatever their order, and never falls when casts become
worse. -/
namespace ScriptFront

namespace CastRules

/-! The greatest numbers of a list. -/

/-- `top` are the `n` greatest numbers, or all if there are fewer. -/
def Greatest (n : Nat) (xs top : List Nat) : Prop :=
  top.length = min n xs.length ∧ ∃ rest, xs.Perm (top ++ rest) ∧ ∀ t ∈ top, ∀ x ∈ rest, x ≤ t

theorem pairwise_mergeSort (xs : List Nat) :
    (xs.mergeSort fun a b => b ≤ a).Pairwise (· ≥ ·) := by
  rw [mergeSort_eq]
  exact List.pairwise_insertionSort (· ≥ ·) xs

/-- There is one way to sort numbers. -/
theorem mergeSort_eq_of_perm {xs ys : List Nat} (hperm : xs.Perm ys) (hys : ys.Pairwise (· ≥ ·)) :
    (xs.mergeSort fun a b => b ≤ a) = ys :=
  ((List.mergeSort_perm xs _).trans hperm).eq_of_pairwise (fun _ _ _ _ hge hle => le_antisymm hle hge)
    (pairwise_mergeSort xs) hys

theorem greatest_take (n : Nat) (xs : List Nat) :
    Greatest n xs ((xs.mergeSort fun a b => b ≤ a).take n) := by
  have hsorted := pairwise_mergeSort xs
  rw [← List.take_append_drop n (xs.mergeSort _)] at hsorted
  refine ⟨by rw [List.length_take, List.length_mergeSort], _, ?_, fun t ht x hx =>
    (List.pairwise_append.mp hsorted).2.2 t ht x hx⟩
  rw [List.take_append_drop]
  exact (List.mergeSort_perm xs _).symm

theorem Greatest.take_mergeSort {n : Nat} {xs top : List Nat} (h : Greatest n xs top) :
    (xs.mergeSort fun a b => b ≤ a).take n = top.mergeSort fun a b => b ≤ a := by
  obtain ⟨hlength, rest, hperm, hle⟩ := h
  have hparts : (xs.mergeSort fun a b => b ≤ a) =
      (top.mergeSort fun a b => b ≤ a) ++ rest.mergeSort fun a b => b ≤ a := by
    refine mergeSort_eq_of_perm (hperm.trans ((List.mergeSort_perm top _).symm.append
      (List.mergeSort_perm rest _).symm)) (List.pairwise_append.mpr
      ⟨pairwise_mergeSort top, pairwise_mergeSort rest, fun t ht x hx => ?_⟩)
    exact hle t (List.mem_mergeSort.mp ht) x (List.mem_mergeSort.mp hx)
  have hall := hperm.length_eq
  rw [List.length_append] at hall
  rw [hparts]
  rcases Nat.le_total n xs.length with hmany | hfew
  · exact List.take_left' (by rw [List.length_mergeSort]; omega)
  · obtain rfl : rest = [] := List.length_eq_zero_iff.mp (by omega)
    rw [List.mergeSort_nil, List.append_nil]
    exact List.take_of_length_le (by rw [List.length_mergeSort]; omega)

/-! Packed numbers. -/

theorem packBytes_take (n : Nat) (xs : List Nat) : packBytes n (xs.take n) = packBytes n xs := by
  induction n generalizing xs with
  | zero => rfl
  | succ n ih =>
    cases xs with
    | nil => rfl
    | cons x xs => rw [List.take_succ_cons, packBytes, packBytes, ih]

theorem packBytes_lt_pow {xs : List Nat} (hxs : ∀ x ∈ xs, x < 256) (n : Nat) :
    packBytes n xs < Nat.pow 256 n := by
  induction xs generalizing n with
  | nil => cases n <;> exact Nat.pow_pos (by decide)
  | cons x xs ih =>
    cases n with
    | zero => exact Nat.one_pos
    | succ n =>
      obtain ⟨hx, hrest⟩ := List.forall_mem_cons.mp hxs
      have hlt : packBytes n xs < Nat.pow 256 n := ih hrest n
      calc packBytes (n + 1) (x :: xs) < x * Nat.pow 256 n + Nat.pow 256 n := Nat.add_lt_add_left hlt _
        _ = (x + 1) * Nat.pow 256 n := (Nat.succ_mul ..).symm
        _ ≤ 256 * Nat.pow 256 n := Nat.mul_le_mul_right _ hx
        _ = Nat.pow 256 (n + 1) := Nat.mul_comm ..

/-- The greatest number decides how great all of them are together. -/
theorem packBytes_mergeSort_lt_iff {xs : List Nat} (hxs : ∀ x ∈ xs, x < 256) {bound : Nat}
    (hbound : 0 < bound) (n : Nat) :
    packBytes (n + 1) (xs.mergeSort fun a b => b ≤ a) < bound * Nat.pow 256 n ↔
      ∀ x ∈ xs, x < bound := by
  have hpow : 0 < Nat.pow 256 n := Nat.pow_pos (by decide)
  have hmem (x : Nat) : x ∈ (xs.mergeSort fun a b => b ≤ a) ↔ x ∈ xs := List.mem_mergeSort
  have hsorted := pairwise_mergeSort xs
  rcases heq : xs.mergeSort fun a b => b ≤ a with _ | ⟨first, rest⟩
  · rw [heq] at hmem
    exact iff_of_true (Nat.mul_pos hbound hpow) fun x hx => absurd ((hmem x).mpr hx) List.not_mem_nil
  · rw [heq] at hmem hsorted
    have hrest : packBytes n rest < Nat.pow 256 n :=
      packBytes_lt_pow (fun x hx => hxs x ((hmem x).mp (List.mem_cons_of_mem first hx))) n
    have hfirst : packBytes (n + 1) (first :: rest) < bound * Nat.pow 256 n ↔ first < bound := by
      constructor
      · intro h
        exact Nat.lt_of_mul_lt_mul_right ((Nat.le_add_right _ _).trans_lt h)
      · intro h
        calc packBytes (n + 1) (first :: rest) < first * Nat.pow 256 n + Nat.pow 256 n :=
              Nat.add_lt_add_left hrest _
          _ = (first + 1) * Nat.pow 256 n := (Nat.succ_mul ..).symm
          _ ≤ bound * Nat.pow 256 n := Nat.mul_le_mul_right _ h
    rw [hfirst]
    constructor
    · intro h x hx
      rcases List.mem_cons.mp ((hmem x).mpr hx) with rfl | hx
      · exact h
      · exact (List.rel_of_pairwise_cons hsorted hx).trans_lt h
    · exact fun h => h first ((hmem first).mp List.mem_cons_self)

/-! Scores. -/

variable {hash : NameHash} {r : CastRules hash} {arguments parameters : List TypeId}

theorem le_of_mem_priorities {x : Nat} (hx : x ∈ r.priorities arguments parameters) :
    x ≤ Cast.impossible := by
  obtain ⟨⟨a, p⟩, -, rfl⟩ := List.mem_map.mp hx
  exact r.implicitPriority_le a p

theorem fits_iff_priorities (hr : r.types.AddsNoNumber)
    (hlength : arguments.length = parameters.length) :
    r.Fits arguments parameters ↔ ∀ x ∈ r.priorities arguments parameters, x < Cast.impossible := by
  rw [Fits, List.forall₂_iff_zip, priorities, List.forall_mem_map]
  constructor
  · rintro ⟨-, h⟩ ⟨a, p⟩ hap
    exact (isValid_iff_priority_lt hr).mp (h hap)
  · exact fun h => ⟨hlength, fun {a p} hap => (isValid_iff_priority_lt hr).mpr (h (a, p) hap)⟩

theorem functionPriority_lt_iff (hr : r.types.AddsNoNumber) :
    r.functionPriority arguments parameters < 0xff000000 ↔
      r.canMatch arguments parameters = true := by
  rw [canMatch_iff]
  by_cases hlength : arguments.length = parameters.length
  · have hbytes : ∀ x ∈ r.priorities arguments parameters, x < 256 :=
      fun x hx => Nat.lt_succ_of_le (le_of_mem_priorities hx)
    rw [functionPriority_eq r hlength, fits_iff_priorities hr hlength]
    have hpos : 0 < Cast.impossible := by decide
    exact packBytes_mergeSort_lt_iff hbytes hpos 3
  · rw [functionPriority, if_neg hlength]
    exact iff_of_false (by decide) fun h => hlength h.length_eq

theorem functionPriority_of_perm {arguments' parameters' : List TypeId}
    (harguments : arguments.length = arguments'.length)
    (hparameters : parameters.length = parameters'.length)
    (hperm : (arguments.zip parameters).Perm (arguments'.zip parameters')) :
    r.functionPriority arguments parameters = r.functionPriority arguments' parameters' := by
  by_cases hlength : arguments.length = parameters.length
  · have hpriorities : (r.priorities arguments parameters).Perm (r.priorities arguments' parameters') :=
      hperm.map _
    have hsort := hpriorities.trans (List.mergeSort_perm _ fun a b => decide (b ≤ a)).symm
    rw [functionPriority_eq r hlength, functionPriority_eq r (by omega),
      mergeSort_eq_of_perm hsort (pairwise_mergeSort _)]
  · rw [functionPriority, functionPriority, if_neg hlength, if_neg (by omega)]

theorem functionPriority_mono {others : List TypeId} (hothers : others.length = parameters.length)
    (h : List.Forall₂ (· ≤ ·) (r.priorities arguments others) (r.priorities arguments parameters)) :
    r.functionPriority arguments others ≤ r.functionPriority arguments parameters := by
  by_cases hlength : arguments.length = parameters.length
  · rw [functionPriority_eq r hlength, functionPriority_eq r (by omega)]
    exact packBytes_le (mergeSort_le h) 4
  · rw [functionPriority, functionPriority, if_neg hlength, if_neg (by omega)]

theorem functionPriority_of_greatest (hlength : arguments.length = parameters.length) {top : List Nat}
    (h : Greatest 4 (r.priorities arguments parameters) top) :
    r.functionPriority arguments parameters = packBytes 4 (top.mergeSort fun a b => b ≤ a) := by
  rw [functionPriority_eq r hlength, ← packBytes_take, h.take_mergeSort]

end CastRules

namespace TypeTables

variable {hash : NameHash}

open CastRules (Greatest)

/-- After any calls that add types and at every feature level, a function takes the arguments if and
only if its score is below `0xff000000`. The score is the same for the same pairs of arguments and
parameters in another order. A function whose casts are nowhere worse has no greater score, and two
functions whose four worst casts have the same priorities have the same score. -/
theorem run_functionPriority (names : Interner hash) (calls : List TypeCall) (level : Nat) :
    let r : CastRules hash := ⟨((new names).run calls).2.types, level⟩
    (∀ arguments parameters, r.functionPriority arguments parameters < 0xff000000 ↔
      r.canMatch arguments parameters = true) ∧
    (∀ arguments parameters arguments' parameters' : List TypeId,
      arguments.length = arguments'.length → parameters.length = parameters'.length →
      (arguments.zip parameters).Perm (arguments'.zip parameters') →
        r.functionPriority arguments parameters = r.functionPriority arguments' parameters') ∧
    (∀ arguments others parameters : List TypeId, others.length = parameters.length →
      List.Forall₂ (· ≤ ·) (r.priorities arguments others) (r.priorities arguments parameters) →
        r.functionPriority arguments others ≤ r.functionPriority arguments parameters) ∧
    (∀ xs, ∃ top, Greatest 4 xs top) ∧
    ∀ (arguments parameters arguments' parameters' : List TypeId) (top : List Nat),
      arguments.length = parameters.length → arguments'.length = parameters'.length →
      Greatest 4 (r.priorities arguments parameters) top →
      Greatest 4 (r.priorities arguments' parameters') top →
        r.functionPriority arguments parameters = r.functionPriority arguments' parameters' := by
  intro r
  refine ⟨fun _ _ => CastRules.functionPriority_lt_iff (addsNoNumber_run_new names calls),
    fun _ _ _ _ => CastRules.functionPriority_of_perm,
    fun _ _ _ => CastRules.functionPriority_mono,
    fun xs => ⟨_, CastRules.greatest_take 4 xs⟩, fun _ _ _ _ _ hlength hlength' htop htop' => ?_⟩
  rw [CastRules.functionPriority_of_greatest hlength htop,
    CastRules.functionPriority_of_greatest hlength' htop']

/-- Of five casts the best does not count. -/
theorem run_functionPriority_five :
    let r : CastRules .standard := ⟨((new .new).run [.arrayOf .u8 2]).2.types, 1⟩
    let arguments : List TypeId := [.u8, .s8, .u16, ⟨64⟩, .float]
    let parameters : List TypeId := [.u16, .s64, .u16, .any, .double]
    let others : List TypeId := [.u8, .s16, .u16, .any, .float]
    r.functionPriority arguments parameters < 0xff000000 ∧
      r.functionPriority arguments.reverse parameters.reverse =
        r.functionPriority arguments parameters ∧
      r.functionPriority arguments others ≤ r.functionPriority arguments parameters ∧
      r.functionPriority (arguments.eraseIdx 2) (parameters.eraseIdx 2) =
        r.functionPriority arguments parameters := by
  intro r arguments parameters others
  obtain ⟨hfits, hperm, hmono, -, hgreatest⟩ :=
    run_functionPriority (.new : Interner .standard) [.arrayOf .u8 2] 1
  have hle : List.Forall₂ (· ≤ ·) (r.priorities arguments others)
      (r.priorities arguments parameters) :=
    List.forall₂_iff_zip.mpr ⟨by decide +kernel, fun {a b} hab =>
      (by decide +kernel : ∀ x ∈ (r.priorities arguments others).zip
        (r.priorities arguments parameters), x.1 ≤ x.2) (a, b) hab⟩
  exact ⟨(hfits _ _).mpr (by decide +kernel), hperm _ _ _ _ rfl rfl (by decide),
    hmono _ _ _ rfl hle,
    hgreatest _ _ _ _ [0xf0, 0x48, 0x13, 0x11] rfl rfl
      ⟨by decide +kernel, [], by decide +kernel, by decide⟩
      ⟨by decide +kernel, [0], by decide +kernel, by decide⟩⟩

end TypeTables
end ScriptFront
