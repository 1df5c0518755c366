import ScriptFront.Proofs.Types.Casts
import ScriptFront.Proofs.Types.Overload
import Mathlib.Data.Prod.Lex

/-! The signature that is chosen for an operator. Main statement: it is the first of those in the
table with the best priorities, where the worse cast of an operand counts before the better one, and
operators that treat both operands alike have one signature for either order of them. -/
namespace ScriptFront

/-- The first of the least elements of a part is among all elements the first of the least ones that
belong to the part. -/
theorem FirstLeast.of_filter {rank : α → Nat} {p : α → Bool} {as : List α} {a : α}
    (h : FirstLeast rank (as.filter p) a) :
    p a = true ∧ ∃ before after, as = before ++ a :: after ∧
      (∀ b ∈ before, p b = true → rank a < rank b) ∧ ∀ b ∈ after, p b = true → rank a ≤ rank b := by
  obtain ⟨earlier, later, hsplit, hearlier, hlater⟩ := h
  obtain ⟨front, back, rfl, rfl, hback⟩ := List.filter_eq_append_iff.mp hsplit
  obtain ⟨skipped, after, rfl, hskipped, ha, rfl⟩ := List.filter_eq_cons_iff.mp hback
  refine ⟨ha, front ++ skipped, after, (List.append_assoc ..).symm, fun b hb hpb => ?_,
    fun b hb hpb => hlater b (List.mem_filter.mpr ⟨hb, hpb⟩)⟩
  rcases List.mem_append.mp hb with hb | hb
  · exact hearlier b (List.mem_filter.mpr ⟨hb, hpb⟩)
  · exact absurd hpb (hskipped b hb)

namespace OperatorCategory

variable {category : OperatorCategory} {rows : List OperatorSignature} {exactLeft : Bool}

theorem exactLeft_iff (h : category.signatures? = some (rows, exactLeft)) :
    exactLeft = true ↔ category = .assignment := by
  cases category <;> cases h <;> decide

/-- Both operands are treated alike. -/
def IsEven (category : OperatorCategory) : Prop := category = .symmetric ∨ category = .comparison

theorem IsEven.ne_assignment (h : category.IsEven) : category ≠ .assignment := by
  rcases h with rfl | rfl <;> decide

theorem IsEven.left_eq_right {s : OperatorSignature} (heven : category.IsEven)
    (h : category.signatures? = some (rows, exactLeft)) (hs : s ∈ rows) : s.left = s.right := by
  rcases heven with rfl | rfl <;> cases h <;> obtain ⟨t, -, rfl⟩ := List.mem_map.mp hs <;> rfl

end OperatorCategory

namespace CastRules

variable {hash : NameHash} {r : CastRules hash} {op : Operator} {left right : TypeId}
  {s t : OperatorSignature}

theorem implicitPriority_le (r : CastRules hash) (a b : TypeId) :
    r.implicitPriority a b ≤ Cast.impossible := by
  rcases (r.cast_resolves a b false).priority_le with ⟨hle, -⟩ | hinvalid
  · exact hle.trans (by decide)
  · rw [implicitPriority, hinvalid]
    exact le_rfl

/-- The priorities of the casts of both operands, the worse one first. -/
def operandPriorities (r : CastRules hash) (left right : TypeId) (s : OperatorSignature) :
    Nat ×ₗ Nat :=
  let a := r.implicitPriority left s.left
  let b := r.implicitPriority right s.right
  toLex (max a b, min a b)

/-- The numbers that the priorities are packed into are in the order of the pairs. -/
theorem signaturePriority_lt_iff :
    r.signaturePriority s left right < r.signaturePriority t left right ↔
      r.operandPriorities left right s < r.operandPriorities left right t := by
  have hs := r.implicitPriority_le left s.left
  have ht := r.implicitPriority_le left t.left
  rw [operandPriorities, operandPriorities, Prod.Lex.toLex_lt_toLex, signaturePriority,
    signaturePriority]
  dsimp only [Cast.impossible] at hs ht ⊢
  omega

theorem signaturePriority_le_iff :
    r.signaturePriority s left right ≤ r.signaturePriority t left right ↔
      r.operandPriorities left right s ≤ r.operandPriorities left right t := by
  rw [← not_lt, signaturePriority_lt_iff, not_lt]

theorem signaturePriority_lt_noSignature_iff (hr : r.types.AddsNoNumber) :
    r.signaturePriority s left right < noSignature ↔
      r.canImplicitly left s.left = true ∧ r.canImplicitly right s.right = true := by
  have hleft := r.implicitPriority_le left s.left
  have hright := r.implicitPriority_le right s.right
  rw [canImplicitly, canImplicitly, isValid_iff_priority_lt hr, isValid_iff_priority_lt hr,
    ← implicitPriority, ← implicitPriority, signaturePriority]
  dsimp only [Cast.impossible, noSignature] at hleft hright ⊢
  omega

/-- An assignment asks for the type of its left operand as it is. -/
def Considers (op : Operator) (left : TypeId) (s : OperatorSignature) : Prop :=
  op.category = .assignment → s.left = left

/-- The signature is considered, and both operands can be cast to its types. -/
structure Accepts (r : CastRules hash) (op : Operator) (left right : TypeId)
    (s : OperatorSignature) : Prop where
  considers : Considers op left s
  left : r.canImplicitly left s.left = true
  right : r.canImplicitly right s.right = true

/-- `s` accepts the operands. Of the signatures in the table that are considered, those before `s` have
worse priorities, and none after it has better ones. -/
def IsFirstBest (r : CastRules hash) (op : Operator) (left right : TypeId)
    (s : OperatorSignature) : Prop :=
  ∃ before after exactLeft, op.category.signatures? = some (before ++ s :: after, exactLeft) ∧
    r.Accepts op left right s ∧
    (∀ t ∈ before, Considers op left t →
      r.operandPriorities left right s < r.operandPriorities left right t) ∧
    ∀ t ∈ after, Considers op left t →
      r.operandPriorities left right s ≤ r.operandPriorities left right t

theorem IsFirstBest.unique (hs : r.IsFirstBest op left right s)
    (ht : r.IsFirstBest op left right t) : s = t := by
  obtain ⟨before, after, _, htable, haccepts, hbefore, hafter⟩ := hs
  obtain ⟨before', after', _, htable', haccepts', hbefore', hafter'⟩ := ht
  obtain ⟨hsplit, -⟩ := Prod.mk.inj (Option.some.inj (htable.symm.trans htable'))
  rcases List.append_eq_append_iff.mp hsplit with ⟨more, hmore, hrest⟩ | ⟨more, hmore, hrest⟩
  · rcases more with _ | ⟨u, more⟩
    · exact (List.cons.inj hrest).1
    · -- `s` comes before `t`
      obtain ⟨rfl, rfl⟩ := List.cons.inj hrest
      have hless := hbefore' s (by simp [hmore]) haccepts.considers
      have hle := hafter t (by simp) haccepts'.considers
      exact absurd hless hle.not_gt
  · rcases more with _ | ⟨u, more⟩
    · exact (List.cons.inj hrest).1.symm
    · obtain ⟨rfl, rfl⟩ := List.cons.inj hrest
      have hless := hbefore t (by simp [hmore]) haccepts'.considers
      have hle := hafter' s (by simp) haccepts.considers
      exact absurd hless hle.not_gt

theorem bestSignature?_of_table {rows : List OperatorSignature} {exactLeft : Bool}
    (htable : op.category.signatures? = some (rows, exactLeft)) :
    r.bestSignature? op left right =
      firstBest?
        (fun s t => r.signaturePriority s left right < r.signaturePriority t left right)
        (rows.filter fun s => (!exactLeft || s.left == left) &&
          r.signaturePriority s left right < noSignature) := by
  rw [bestSignature?, htable]
  rfl

/-- The choice is among the signatures that accept the operands. -/
theorem candidate_iff (hr : r.types.AddsNoNumber) {rows : List OperatorSignature}
    {exactLeft : Bool} (htable : op.category.signatures? = some (rows, exactLeft)) :
    ((!exactLeft || s.left == left) && r.signaturePriority s left right < noSignature) = true ↔
      r.Accepts op left right s := by
  rw [Bool.and_eq_true, Bool.or_eq_true, Bool.not_eq_true', ← Bool.not_eq_true,
    OperatorCategory.exactLeft_iff htable, ← imp_iff_not_or, beq_iff_eq, decide_eq_true_eq,
    signaturePriority_lt_noSignature_iff hr]
  exact ⟨fun ⟨hconsiders, hleft, hright⟩ => ⟨hconsiders, hleft, hright⟩,
    fun h => ⟨h.considers, h.left, h.right⟩⟩

theorem Accepts.lt_of_not (hr : r.types.AddsNoNumber) (hs : r.Accepts op left right s)
    (hconsiders : Considers op left t) (ht : ¬ r.Accepts op left right t) :
    r.signaturePriority s left right < r.signaturePriority t left right := by
  have hless := (signaturePriority_lt_noSignature_iff hr).mpr ⟨hs.left, hs.right⟩
  have hnot : ¬ r.signaturePriority t left right < noSignature := fun h =>
    have hcasts := (signaturePriority_lt_noSignature_iff hr).mp h
    ht ⟨hconsiders, hcasts.1, hcasts.2⟩
  omega

theorem isFirstBest_of_bestSignature? (hr : r.types.AddsNoNumber)
    (h : r.bestSignature? op left right = some s) : r.IsFirstBest op left right s := by
  rcases htable : op.category.signatures? with _ | ⟨rows, exactLeft⟩
  · rw [bestSignature?, htable] at h
    cases h
  · rw [bestSignature?_of_table htable] at h
    obtain ⟨hs, before, after, rfl, hbefore, hafter⟩ := (FirstLeast.of_firstBest? h).of_filter
    have hcandidate (t : OperatorSignature) :
        ((!exactLeft || t.left == left) && r.signaturePriority t left right < noSignature) = true ↔
          r.Accepts op left right t := candidate_iff hr htable
    have hs : r.Accepts op left right s := (hcandidate s).mp hs
    refine ⟨before, after, exactLeft, htable, hs, fun t ht hconsiders => ?_,
      fun t ht hconsiders => ?_⟩
    · rw [← signaturePriority_lt_iff]
      by_cases haccepts : r.Accepts op left right t
      · exact hbefore t ht ((hcandidate t).mpr haccepts)
      · exact hs.lt_of_not hr hconsiders haccepts
    · rw [← signaturePriority_le_iff]
      by_cases haccepts : r.Accepts op left right t
      · exact hafter t ht ((hcandidate t).mpr haccepts)
      · exact (hs.lt_of_not hr hconsiders haccepts).le

theorem isSome_bestSignature?_iff (hr : r.types.AddsNoNumber) :
    (r.bestSignature? op left right).isSome = true ↔
      ∃ rows exactLeft, op.category.signatures? = some (rows, exactLeft) ∧
        ∃ s ∈ rows, r.Accepts op left right s := by
  constructor
  · intro h
    obtain ⟨s, hs⟩ := Option.isSome_iff_exists.mp h
    obtain ⟨before, after, exactLeft, htable, haccepts, -⟩ := isFirstBest_of_bestSignature? hr hs
    exact ⟨_, exactLeft, htable, s, by simp, haccepts⟩
  · rintro ⟨rows, exactLeft, htable, s, hs, haccepts⟩
    rw [bestSignature?_of_table htable, Option.isSome_iff_ne_none, Ne, firstBest?_eq_none_iff]
    exact List.ne_nil_of_mem (List.mem_filter.mpr ⟨hs, (candidate_iff hr htable).mpr haccepts⟩)

theorem bestSignature?_eq_some_iff (hr : r.types.AddsNoNumber) :
    r.bestSignature? op left right = some s ↔ r.IsFirstBest op left right s := by
  refine ⟨isFirstBest_of_bestSignature? hr, fun h => ?_⟩
  have hsome : (r.bestSignature? op left right).isSome = true := by
    obtain ⟨before, after, exactLeft, htable, haccepts, -⟩ := h
    exact (isSome_bestSignature?_iff hr).mpr ⟨_, exactLeft, htable, s, by simp, haccepts⟩
  obtain ⟨t, ht⟩ := Option.isSome_iff_exists.mp hsome
  rw [ht, h.unique (isFirstBest_of_bestSignature? hr ht)]

/-! Exchanged operands. -/

theorem operandPriorities_comm (hs : s.left = s.right) :
    r.operandPriorities left right s = r.operandPriorities right left s := by
  rw [operandPriorities, operandPriorities, hs, max_comm, min_comm]

theorem IsFirstBest.exchange (heven : op.category.IsEven) (h : r.IsFirstBest op left right s) :
    r.IsFirstBest op right left s := by
  obtain ⟨before, after, exactLeft, htable, haccepts, hbefore, hafter⟩ := h
  have hrow {t : OperatorSignature} (ht : t ∈ before ++ s :: after) : t.left = t.right :=
    heven.left_eq_right htable ht
  have hcomm {t : OperatorSignature} (ht : t ∈ before ++ s :: after) :
      r.operandPriorities right left t = r.operandPriorities left right t :=
    operandPriorities_comm (hrow ht)
  have hconsiders (id : TypeId) (t : OperatorSignature) : Considers op id t :=
    fun h => absurd h heven.ne_assignment
  have hs : s ∈ before ++ s :: after := List.mem_append_right _ List.mem_cons_self
  refine ⟨before, after, exactLeft, htable, ⟨hconsiders _ _, hrow hs ▸ haccepts.right,
    hrow hs ▸ haccepts.left⟩, fun t ht _ => ?_, fun t ht _ => ?_⟩
  · rw [hcomm hs, hcomm (List.mem_append_left _ ht)]
    exact hbefore t ht (hconsiders _ _)
  · rw [hcomm hs, hcomm (List.mem_append_right _ (List.mem_cons_of_mem _ ht))]
    exact hafter t ht (hconsiders _ _)

end CastRules

namespace TypeTables

variable {hash : NameHash}

/-- After any calls that add types and at every feature level, an operator has a signature for its
operands if and only if one in its table accepts them. It is the first of those with the best
priorities, and both operands can be cast to its types. Where both operands are treated alike it is
the signature for the exchanged operands too. -/
theorem run_bestSignature? (names : Interner hash) (calls : List TypeCall) (level : Nat)
    (op : Operator) (left right : TypeId) :
    let r : CastRules hash := ⟨((new names).run calls).2.types, level⟩
    ((r.bestSignature? op left right).isSome = true ↔
      ∃ rows exactLeft, op.category.signatures? = some (rows, exactLeft) ∧
        ∃ s ∈ rows, r.Accepts op left right s) ∧
    (∀ s, r.bestSignature? op left right = some s ↔ r.IsFirstBest op left right s) ∧
    (∀ s, r.bestSignature? op left right = some s →
      r.implicitPriority left s.left < Cast.impossible ∧
        r.implicitPriority right s.right < Cast.impossible) ∧
    (op.category = .symmetric ∨ op.category = .comparison →
      r.bestSignature? op right left = r.bestSignature? op left right) := by
  intro r
  have hr : r.types.AddsNoNumber := addsNoNumber_run_new names calls
  refine ⟨CastRules.isSome_bestSignature?_iff hr, fun s => CastRules.bestSignature?_eq_some_iff hr,
    fun s hs => ?_, fun heven => Option.ext fun s => ?_⟩
  · obtain ⟨_, _, _, -, haccepts, -⟩ := CastRules.isFirstBest_of_bestSignature? hr hs
    exact ⟨(CastRules.isValid_iff_priority_lt hr).mp haccepts.left,
      (CastRules.isValid_iff_priority_lt hr).mp haccepts.right⟩
  · rw [CastRules.bestSignature?_eq_some_iff hr, CastRules.bestSignature?_eq_some_iff hr]
    exact ⟨.exchange heven, .exchange heven⟩

/-- A signed operand of 16 bits and an unsigned one of 8, in either order, are added as signed numbers
of 16 bits. -/
theorem run_bestSignature?_mixed :
    let r : CastRules .standard := ⟨((new .new).run [.arrayOf .u8 2]).2.types, 1⟩
    let s : OperatorSignature := ⟨.s16, .s16, .s16⟩
    r.bestSignature? .add .s16 .u8 = some s ∧ r.IsFirstBest .add .s16 .u8 s ∧
      r.implicitPriority .u8 s.right < Cast.impossible ∧
      r.bestSignature? .add .u8 .s16 = some s := by
  intro r s
  have hbest : r.bestSignature? .add .s16 .u8 = some s := by decide +kernel
  obtain ⟨-, hfirst, hcasts, hexchange⟩ :=
    run_bestSignature? (.new : Interner .standard) [.arrayOf .u8 2] 1 .add .s16 .u8
  exact ⟨hbest, (hfirst s).mp hbest, (hcasts s hbest).2, (hexchange (.inl rfl)).trans hbest⟩

end TypeTables
end ScriptFront
