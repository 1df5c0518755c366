import ScriptFront.Proofs.Types.Ranking

/-! The function that is chosen for a call. Main statement: it is the first of those that fit with the
best rank, and with up to four arguments no function that fits is better for it. -/
namespace ScriptFront

/-! The first of the least elements. -/

theorem firstBest?_eq_none_iff {better : α → α → Bool} {as : List α} :
    firstBest? better as = none ↔ as = [] := by
  cases as with
  | nil => exact ⟨fun _ => rfl, fun _ => rfl⟩
  | cons a as => exact ⟨fun h => (by cases h), fun h => (by cases h)⟩

/-- All before `a` are worse, and none after it is better. -/
def FirstLeast (rank : α → Nat) (as : List α) (a : α) : Prop :=
  ∃ before after, as = before ++ a :: after ∧
    (∀ b ∈ before, rank a < rank b) ∧ ∀ b ∈ after, rank a ≤ rank b

namespace FirstLeast

variable {rank : α → Nat} {as : List α} {a best : α}

theorem step (h : FirstLeast rank as best) (a : α) :
    FirstLeast rank (as ++ [a]) (if rank a < rank best then a else best) := by
  obtain ⟨before, after, rfl, hbefore, hafter⟩ := h
  split_ifs with hless
  · refine ⟨before ++ best :: after, [], rfl, fun b hb => ?_, fun b hb => absurd hb List.not_mem_nil⟩
    rcases List.mem_append.mp hb with hb | hb
    · exact hless.trans (hbefore b hb)
    · rcases List.mem_cons.mp hb with rfl | hb
      · exact hless
      · exact hless.trans_le (hafter b hb)
  · refine ⟨before, after ++ [a], List.append_assoc .., hbefore, fun b hb => ?_⟩
    rcases List.mem_append.mp hb with hb | hb
    · exact hafter b hb
    · rw [List.mem_singleton.mp hb]
      exact not_lt.mp hless

theorem foldl (h : FirstLeast rank as best) (rest : List α) :
    FirstLeast rank (as ++ rest)
      (rest.foldl (fun best a => if rank a < rank best then a else best) best) := by
  induction rest generalizing as best with
  | nil => rwa [List.append_nil]
  | cons a rest ih =>
    have hsteps := ih (h.step a)
    rwa [List.append_assoc] at hsteps

theorem of_firstBest? (h : firstBest? (fun a b => rank a < rank b) as = some a) :
    FirstLeast rank as a := by
  cases as with
  | nil => cases h
  | cons first rest =>
    have hfirst : FirstLeast rank [first] first :=
      ⟨[], [], rfl, fun b hb => absurd hb List.not_mem_nil, fun b hb => absurd hb List.not_mem_nil⟩
    simp only [firstBest?, decide_eq_true_eq, Option.some.injEq] at h
    exact h ▸ hfirst.foldl rest

end FirstLeast

namespace CastRules

variable {hash : NameHash} (r : CastRules hash)

/-- The function takes as many arguments, and each of them can be cast implicitly to its parameter. -/
def Fits (arguments parameters : List TypeId) : Prop :=
  List.Forall₂ (fun a p => r.canImplicitly a p = true) arguments parameters

/-- The function at the place `i` fits, with the best rank of those that fit. Those before it that fit
have a worse one. -/
def IsBest (arguments : List TypeId) (candidates : List (List TypeId)) (i : Nat) : Prop :=
  ∃ parameters, candidates[i]? = some parameters ∧ r.Fits arguments parameters ∧
    ∀ j others, candidates[j]? = some others → r.Fits arguments others →
      r.functionPriority arguments parameters ≤ r.functionPriority arguments others ∧
      (j < i → r.functionPriority arguments parameters < r.functionPriority arguments others)

/-- The casts to the parameters `others` are nowhere worse and somewhere better. -/
def Dominates (arguments others parameters : List TypeId) : Prop :=
  List.Forall₂ (· ≤ ·) (r.priorities arguments others) (r.priorities arguments parameters) ∧
    ∃ x ∈ (r.priorities arguments others).zip (r.priorities arguments parameters), x.1 < x.2

variable {r} {arguments parameters others : List TypeId} {candidates : List (List TypeId)}

theorem canMatch_iff : r.canMatch arguments parameters = true ↔ r.Fits arguments parameters := by
  rw [Fits, List.forall₂_iff_zip, canMatch, Bool.and_eq_true, beq_iff_eq, List.all_eq_true]
  exact and_congr_right fun _ => Prod.forall

theorem Fits.self (arguments : List TypeId) : r.Fits arguments arguments :=
  List.forall₂_same.mpr fun a _ => r.canImplicitly_self a

theorem Dominates.functionPriority_lt (hothers : r.Fits arguments others)
    (hparameters : r.Fits arguments parameters) (hfew : arguments.length ≤ 4)
    (h : r.Dominates arguments others parameters) :
    r.functionPriority arguments others < r.functionPriority arguments parameters := by
  obtain ⟨hle, x, hx, hlt⟩ := h
  refine r.functionPriority_lt hothers.length_eq hparameters.length_eq hfew hle fun heq => ?_
  have hsame : List.Forall₂ (· = ·) (r.priorities arguments others)
      (r.priorities arguments parameters) := heq ▸ List.forall₂_refl _
  have heq : x.1 = x.2 := (List.forall₂_iff_zip.mp hsame).2 hx
  omega

theorem IsBest.unique {i j : Nat} (hi : r.IsBest arguments candidates i)
    (hj : r.IsBest arguments candidates j) : i = j := by
  obtain ⟨ps, hps, hfits, hleast⟩ := hi
  obtain ⟨qs, hqs, hfits', hleast'⟩ := hj
  rcases lt_trichotomy i j with hlt | rfl | hlt
  · have hle := (hleast j qs hqs hfits').1
    have hless := (hleast' i ps hps hfits).2 hlt
    omega
  · rfl
  · have hle := (hleast' i ps hps hfits).1
    have hless := (hleast j qs hqs hfits').2 hlt
    omega

/-- The functions that fit, with their places. -/
def fitting (r : CastRules hash) (arguments : List TypeId) (candidates : List (List TypeId)) :
    List (List TypeId × Nat) :=
  candidates.zipIdx.filter fun (parameters, _) => r.canMatch arguments parameters

theorem mem_fitting {i : Nat} : (parameters, i) ∈ r.fitting arguments candidates ↔
    candidates[i]? = some parameters ∧ r.Fits arguments parameters := by
  rw [fitting, List.mem_filter, List.mem_zipIdx_iff_getElem?]
  exact and_congr_right fun _ => canMatch_iff

theorem pairwise_fitting (r : CastRules hash) (arguments : List TypeId)
    (candidates : List (List TypeId)) :
    (r.fitting arguments candidates).Pairwise fun x y => x.2 < y.2 := by
  have hplaces : (candidates.zipIdx.map (·.2)).Pairwise (· < ·) := by
    rw [List.zipIdx_map_snd]
    exact List.pairwise_lt_range'
  exact (List.pairwise_map.mp hplaces).filter _

theorem bestFunction?_eq_none_iff : r.bestFunction? arguments candidates = none ↔
    ∀ parameters ∈ candidates, ¬ r.Fits arguments parameters := by
  rw [bestFunction?, Option.map_eq_none_iff, firstBest?_eq_none_iff, ← fitting,
    List.eq_nil_iff_forall_not_mem]
  constructor
  · intro h parameters hmem hfits
    obtain ⟨i, hi⟩ := List.getElem?_of_mem hmem
    exact h (parameters, i) (mem_fitting.mpr ⟨hi, hfits⟩)
  · rintro h ⟨parameters, i⟩ hmem
    obtain ⟨hi, hfits⟩ := mem_fitting.mp hmem
    exact h parameters (List.mem_of_getElem? hi) hfits

theorem isBest_of_bestFunction? {i : Nat} (h : r.bestFunction? arguments candidates = some i) :
    r.IsBest arguments candidates i := by
  obtain ⟨⟨parameters, i⟩, hbest, rfl⟩ := Option.map_eq_some_iff.mp h
  obtain ⟨before, after, hsplit, hbefore, hafter⟩ := FirstLeast.of_firstBest? hbest
  rw [← fitting] at hsplit
  have hmem : (parameters, i) ∈ r.fitting arguments candidates :=
    hsplit ▸ List.mem_append_right before List.mem_cons_self
  obtain ⟨hi, hfits⟩ := mem_fitting.mp hmem
  refine ⟨parameters, hi, hfits, fun j others hj hothers => ?_⟩
  have hmem : (others, j) ∈ r.fitting arguments candidates := mem_fitting.mpr ⟨hj, hothers⟩
  have hplaces := pairwise_fitting r arguments candidates
  rw [hsplit] at hmem hplaces
  rcases List.mem_append.mp hmem with hmem | hmem
  · have hless := hbefore _ hmem
    exact ⟨hless.le, fun _ => hless⟩
  · rcases List.mem_cons.mp hmem with heq | hmem
    · cases heq
      exact ⟨le_rfl, fun hlt => absurd hlt (lt_irrefl i)⟩
    · -- the places grow along the list
      have hafter := hafter _ hmem
      have hlater : i < j := (List.pairwise_cons.mp (List.pairwise_append.mp hplaces).2.1).1 _ hmem
      exact ⟨hafter, fun hlt => by omega⟩

theorem bestFunction?_eq_some_iff {i : Nat} :
    r.bestFunction? arguments candidates = some i ↔ r.IsBest arguments candidates i := by
  constructor
  · exact isBest_of_bestFunction?
  · intro h
    rcases hbest : r.bestFunction? arguments candidates with _ | j
    · obtain ⟨parameters, hi, hfits, _⟩ := h
      exact absurd hfits (bestFunction?_eq_none_iff.mp hbest parameters (List.mem_of_getElem? hi))
    · rw [h.unique (isBest_of_bestFunction? hbest)]

/-- The first function that takes the arguments as they are has the best rank, and no other has. -/
theorem isBest_of_idxOf? {i : Nat} (h : candidates.idxOf? arguments = some i) :
    r.IsBest arguments candidates i := by
  obtain ⟨hi, hfound, hbefore⟩ := List.idxOf?_eq_some_iff.mp h
  refine ⟨arguments, ?_, Fits.self arguments, fun j others hj _ => ?_⟩
  · rw [List.getElem?_eq_getElem hi, hfound]
  · rw [r.functionPriority_self]
    refine ⟨Nat.zero_le _, fun hlt => Nat.pos_of_ne_zero fun hzero => ?_⟩
    obtain ⟨hj, rfl⟩ := List.getElem?_eq_some_iff.mp hj
    exact hbefore j hlt (eq_of_functionPriority_eq_zero r hzero)

/-- A function is chosen if one fits. It is the first of those with the best rank, so that one that
takes the arguments as they are comes before all others. Up to four arguments all count. -/
theorem bestFunction?_isBest (r : CastRules hash) (arguments : List TypeId)
    (candidates : List (List TypeId)) :
    (r.bestFunction? arguments candidates = none ↔
      ∀ parameters ∈ candidates, ¬ r.Fits arguments parameters) ∧
    (∀ i, r.bestFunction? arguments candidates = some i ↔ r.IsBest arguments candidates i) ∧
    (∀ i, candidates.idxOf? arguments = some i →
      r.bestFunction? arguments candidates = some i) ∧
    ∀ i parameters, r.bestFunction? arguments candidates = some i →
      candidates[i]? = some parameters → arguments.length ≤ 4 →
      ∀ others ∈ candidates, r.Fits arguments others → ¬ r.Dominates arguments others parameters := by
  refine ⟨bestFunction?_eq_none_iff, fun i => bestFunction?_eq_some_iff, fun i hi => ?_, ?_⟩
  · exact bestFunction?_eq_some_iff.mpr (isBest_of_idxOf? hi)
  · intro i parameters hbest hi hfew others hothers hfits hdominates
    obtain ⟨parameters', hi', hfits', hleast⟩ := isBest_of_bestFunction? hbest
    obtain rfl : parameters = parameters' := Option.some.inj (hi ▸ hi')
    obtain ⟨j, hj⟩ := List.getElem?_of_mem hothers
    have hle := (hleast j others hj hfits).1
    have hlt := hdominates.functionPriority_lt hfits hfits' hfew
    omega

theorem bestFunction?_exact :
    (⟨.new, stringCastLevel⟩ : CastRules fun _ => 0).bestFunction? [.u8, .string]
      [[.u8], [.u8, .any], [.u8, .string], [.u8, .string]] = some 2 := by
  obtain ⟨_, _, hexact, _⟩ := bestFunction?_isBest (⟨.new, stringCastLevel⟩ : CastRules fun _ => 0)
    [.u8, .string] [[.u8], [.u8, .any], [.u8, .string], [.u8, .string]]
  exact hexact 2 (by decide)

end CastRules
end ScriptFront
