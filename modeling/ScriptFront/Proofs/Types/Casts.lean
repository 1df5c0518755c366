import ScriptFront.Proofs.Types.Numbers

/-! Casts between the types of a catalogue. Main statement: after any calls that add types, the
answers about implicit casts, explicit casts and constants agree with each other. -/
namespace ScriptFront

namespace CastRules

variable {hash : NameHash} {r : CastRules hash} {a b c : TypeId} {t u : DataType} {explicit : Bool}

/-! All that a cast can be. -/

/-- The types that a cast goes between. A string is the `u64` that it is read as. -/
def Between (r : CastRules hash) (a b : TypeId) (t u : DataType) : Prop :=
  r.types.get? (sourceType a) = some t ∧ r.types.get? (r.targetType b) = some u

inductive Resolves (r : CastRules hash) (a b : TypeId) (explicit : Bool) : Cast → Prop
  | same (h : a = b) : Resolves r a b explicit ⟨.noCast, 0⟩
  /-- A string and `u64`. -/
  | alike (hne : a ≠ b) (h : sourceType a = r.targetType b) : Resolves r a b explicit ⟨.noCast, 1⟩
  | boxed (hne : a ≠ b) (hunlike : sourceType a ≠ r.targetType b) (h : b = .any) :
      Resolves r a b explicit ⟨.any, Cast.anyPriority⟩
  | converted {t u : DataType} (hne : a ≠ b) (hunlike : sourceType a ≠ r.targetType b)
      (hany : b ≠ .any) (hfound : r.Between a b t u) (h : Converts t u explicit) :
      Resolves r a b explicit (between t u explicit)
  | invalid (hne : a ≠ b) (hunlike : sourceType a ≠ r.targetType b) (hany : b ≠ .any)
      (h : ∀ t u, r.Between a b t u → ¬ Converts t u explicit) : Resolves r a b explicit .invalid

theorem Between.unique {t' u' : DataType} (h : r.Between a b t u) (h' : r.Between a b t' u') :
    t = t' ∧ u = u' :=
  ⟨Option.some.inj (h.1.symm.trans h'.1), Option.some.inj (h.2.symm.trans h'.2)⟩

theorem targetType_eq_any_iff : r.targetType b = .any ↔ b = .any := by
  unfold targetType
  split_ifs with h
  · rw [h.1]
    decide
  · rfl

theorem cast_resolves (r : CastRules hash) (a b : TypeId) (explicit : Bool) :
    r.Resolves a b explicit (r.cast a b explicit) := by
  unfold cast
  dsimp only
  split_ifs with hsame halike hany
  · exact .same hsame
  · exact .alike hsame halike
  · exact .boxed hsame halike (targetType_eq_any_iff.mp hany)
  · have hne : b ≠ .any := fun h => hany (targetType_eq_any_iff.mpr h)
    split
    · next t u ht hu =>
      by_cases hconverts : Converts t u explicit
      · exact .converted hsame halike hne ⟨ht, hu⟩ hconverts
      · rw [between_of_not_converts hconverts]
        refine .invalid hsame halike hne fun t' u' hfound => ?_
        obtain ⟨rfl, rfl⟩ := Between.unique ⟨ht, hu⟩ hfound
        exact hconverts
    · next hnone =>
      refine .invalid hsame halike hne fun t u hfound => ?_
      exact absurd hfound.2 (hnone t u hfound.1)

theorem cast_of_between (hne : a ≠ b) (hunlike : sourceType a ≠ r.targetType b) (hany : b ≠ .any)
    (hfound : r.Between a b t u) (explicit : Bool) :
    r.cast a b explicit = between t u explicit := by
  have hany : r.targetType b ≠ .any := fun h => hany (targetType_eq_any_iff.mp h)
  simp only [cast, if_neg hne, if_neg hunlike, if_neg hany, hfound.1, hfound.2]

/-- A conversion between numbers can be made. -/
theorem kind_ofBases (hr : r.types.AddsNoNumber) (hfound : r.Between a b t u)
    (h : Converts t u explicit) :
    Cast.ofBases t.base u.base ≠ .invalid ∧ Cast.ofBases t.base u.base ≠ .any := by
  have ht := DataType.base_ne_void (hr.mem_predefined hfound.1 h.1) h.1
  have hu := DataType.base_ne_void (hr.mem_predefined hfound.2 h.2.1) h.2.1
  refine ⟨?_, Cast.ofBases_ne_any t.base u.base⟩
  rw [ne_eq, Cast.ofBases_eq_invalid_iff, not_or]
  exact ⟨ht, hu⟩

/-- Of two types as they are read, one is the other or can be converted into it. -/
def Reaches (r : CastRules hash) (a b : TypeId) (explicit : Bool) : Prop :=
  a = b ∨ ∃ t u, r.types.get? a = some t ∧ r.types.get? b = some u ∧ Converts t u explicit

/-- There is a cast. -/
def Admits (r : CastRules hash) (a b : TypeId) (explicit : Bool) : Prop :=
  a = b ∨ b = .any ∨ r.Reaches (sourceType a) (r.targetType b) explicit

namespace Resolves

variable {k : Cast}

theorem isValid_iff (h : r.Resolves a b explicit k) (hr : r.types.AddsNoNumber) :
    k.isValid = true ↔ r.Admits a b explicit := by
  cases h with
  | same heq => exact iff_of_true rfl (.inl heq)
  | alike _ heq => exact iff_of_true rfl (.inr (.inr (.inl heq)))
  | boxed _ _ heq => exact iff_of_true rfl (.inr (.inl heq))
  | @converted t u _ _ _ hfound h =>
    obtain ⟨priority, hcast, -, -⟩ := between_of_converts h
    have hreaches : r.Reaches (sourceType a) (r.targetType b) explicit :=
      .inr ⟨t, u, hfound.1, hfound.2, h⟩
    rw [hcast]
    exact iff_of_true (bne_iff_ne.mpr (kind_ofBases hr hfound h).1) (.inr (.inr hreaches))
  | invalid hne hunlike hany hnone =>
    refine iff_of_false Bool.false_ne_true ?_
    rintro (heq | heq | heq | ⟨t, u, ht, hu, h⟩)
    · exact hne heq
    · exact hany heq
    · exact hunlike heq
    · exact hnone t u ⟨ht, hu⟩ h

/-- Where there is no cast, the answer says no more than that. -/
theorem eq_invalid (h : r.Resolves a b explicit k) (hadmits : ¬ r.Admits a b explicit) :
    k = .invalid := by
  cases h with
  | same heq => exact absurd (.inl heq) hadmits
  | alike _ heq => exact absurd (.inr (.inr (.inl heq))) hadmits
  | boxed _ _ heq => exact absurd (.inr (.inl heq)) hadmits
  | @converted t u _ _ _ hfound h =>
    exact absurd (.inr (.inr (.inr ⟨t, u, hfound.1, hfound.2, h⟩))) hadmits
  | invalid => rfl

theorem priority_eq_zero_iff (h : r.Resolves a b explicit k) : k.priority = 0 ↔ a = b := by
  cases h with
  | same heq => exact iff_of_true rfl heq
  | alike hne => exact iff_of_false Nat.one_ne_zero hne
  | boxed hne => exact iff_of_false (by decide) hne
  | converted hne _ _ _ h =>
    obtain ⟨priority, hcast, hpos, -⟩ := between_of_converts h
    rw [hcast]
    exact iff_of_false hpos.ne' hne
  | invalid hne => exact iff_of_false (by decide) hne

/-- The cast to `any` is worse than all others. -/
theorem priority_le (h : r.Resolves a b explicit k) :
    k.priority ≤ Cast.anyPriority ∧ (b ≠ .any → k.priority < Cast.anyPriority) ∨ k = .invalid := by
  cases h with
  | same => exact .inl ⟨by decide, fun _ => by decide⟩
  | alike => exact .inl ⟨by decide, fun _ => by decide⟩
  | boxed _ _ heq => exact .inl ⟨le_rfl, fun hne => absurd heq hne⟩
  | converted _ _ _ _ h =>
    obtain ⟨priority, hcast, -, hlt⟩ := between_of_converts h
    rw [hcast]
    exact .inl ⟨hlt.le, fun _ => hlt⟩
  | invalid => exact .inr rfl

end Resolves

theorem isValid_cast_iff (hr : r.types.AddsNoNumber) :
    (r.cast a b explicit).isValid = true ↔ r.Admits a b explicit :=
  (r.cast_resolves a b explicit).isValid_iff hr

theorem cast_of_not_admits (h : ¬ r.Admits a b explicit) : r.cast a b explicit = .invalid :=
  (r.cast_resolves a b explicit).eq_invalid h

theorem isValid_iff_priority_lt (hr : r.types.AddsNoNumber) :
    (r.cast a b explicit).isValid = true ↔ (r.cast a b explicit).priority < Cast.impossible := by
  by_cases hadmits : r.Admits a b explicit
  · have hvalid := (isValid_cast_iff hr).mpr hadmits
    refine iff_of_true hvalid ?_
    rcases (r.cast_resolves a b explicit).priority_le with ⟨hle, -⟩ | hinvalid
    · exact hle.trans_lt (by decide)
    · rw [hinvalid] at hvalid
      cases hvalid
  · rw [cast_of_not_admits hadmits]
    exact iff_of_false Bool.false_ne_true (lt_irrefl _)

theorem priority_lt_of_isValid (h : (r.cast a b explicit).isValid = true) (hany : b ≠ .any) :
    (r.cast a b explicit).priority < Cast.anyPriority := by
  rcases (r.cast_resolves a b explicit).priority_le with ⟨-, hlt⟩ | hinvalid
  · exact hlt hany
  · rw [hinvalid] at h
    cases h

/-! What an explicit cast adds. -/

/-- The type is a floating number. -/
def IsFloating (r : CastRules hash) (a : TypeId) : Prop :=
  ∃ t, r.types.get? a = some t ∧ t.isFloating = true

/-- The type is an integer as a target of casts, where a string may be read as `u64`. -/
def IsIntegerTarget (r : CastRules hash) (b : TypeId) : Prop :=
  ∃ u, r.types.get? (r.targetType b) = some u ∧ u.isInteger = true

theorem sourceType_of_ne (h : a ≠ .string) : sourceType a = a := if_neg h

theorem targetType_of_ne (h : b ≠ .string) : r.targetType b = b := if_neg fun hb => h hb.1

theorem sourceType_ne_string (a : TypeId) : sourceType a ≠ .string := by
  unfold sourceType
  split_ifs with h
  · decide
  · exact h

theorem not_isNumber_any (hfound : r.types.get? .any = some t) : ¬ t.isNumber = true := by
  rw [Catalogue.get?_of_lt _ (by decide)] at hfound
  have hall : ∀ t ∈ DataType.predefined[DataType.predefinedIndex .any]?, ¬t.isNumber = true := by
    decide
  exact hall t hfound

theorem not_isNumber_string (hfound : r.types.get? .string = some t) : ¬ t.isNumber = true := by
  rw [Catalogue.get?_of_lt _ (by decide)] at hfound
  have hall : ∀ t ∈ DataType.predefined[DataType.predefinedIndex .string]?,
      ¬t.isNumber = true := by decide
  exact hall t hfound

theorem isInteger_u64 (hfound : r.types.get? .u64 = some t) : t.isInteger = true := by
  rw [Catalogue.get?_of_lt _ (by decide)] at hfound
  have hall : ∀ t ∈ DataType.predefined[DataType.predefinedIndex .u64]?, t.isInteger = true := by
    decide
  exact hall t hfound

theorem isFloating_iff : r.IsFloating a ↔
    ∃ t, r.types.get? (sourceType a) = some t ∧ t.isFloating = true := by
  by_cases ha : a = .string
  · subst ha
    constructor
    · rintro ⟨t, hfound, hfloating⟩
      exact absurd (DataType.isNumber_iff.mpr (.inr hfloating)) (not_isNumber_string hfound)
    · rintro ⟨t, hfound, hfloating⟩
      exact absurd (isInteger_u64 hfound) (DataType.not_isInteger_of_isFloating hfloating)
  · rw [sourceType_of_ne ha]
    rfl

theorem cast_true_of_not_floating (h : ¬ (r.IsFloating a ∧ r.IsIntegerTarget b)) :
    r.cast a b true = r.cast a b false := by
  unfold cast
  dsimp only
  split_ifs
  any_goals rfl
  split
  · next t u ht hu =>
    refine between_true fun ⟨hfloating, hinteger⟩ => h ⟨?_, u, hu, hinteger⟩
    exact isFloating_iff.mpr ⟨t, ht, hfloating⟩
  · rfl

/-- Only an explicit cast goes from a floating number to an integer. -/
theorem cast_of_floating (ha : r.IsFloating a) (hb : r.IsIntegerTarget b) :
    r.cast a b false = .invalid ∧ (r.cast a b true).priority < Cast.anyPriority := by
  obtain ⟨t, ht, hfloating⟩ := isFloating_iff.mp ha
  obtain ⟨u, hu, hinteger⟩ := hb
  have htnumber : t.isNumber = true := DataType.isNumber_iff.mpr (.inr hfloating)
  have hunumber : u.isNumber = true := DataType.isNumber_iff.mpr (.inl hinteger)
  have hunlike : sourceType a ≠ r.targetType b := by
    intro heq
    rw [heq, hu] at ht
    cases ht
    exact DataType.not_isInteger_of_isFloating hfloating hinteger
  have hne : a ≠ b := by
    rintro rfl
    by_cases hstring : a = .string
    · rw [hstring] at ht
      exact DataType.not_isInteger_of_isFloating hfloating (isInteger_u64 ht)
    · exact hunlike ((sourceType_of_ne hstring).trans (targetType_of_ne hstring).symm)
  have hany : b ≠ .any := by
    intro heq
    rw [targetType_eq_any_iff.mpr heq] at hu
    exact not_isNumber_any hu hunumber
  have hcast := cast_of_between hne hunlike hany ⟨ht, hu⟩
  constructor
  · rw [hcast]
    exact between_of_not_converts fun h => Bool.false_ne_true (h.2.2 hfloating hinteger)
  · have hconverts : Converts t u true := ⟨htnumber, hunumber, fun _ _ => rfl⟩
    obtain ⟨priority, hbetween, -, hlt⟩ := between_of_converts hconverts
    rw [hcast, hbetween]
    exact hlt

theorem cast_true_of_canImplicitly (h : r.canImplicitly a b = true) :
    r.cast a b true = r.cast a b false := by
  refine cast_true_of_not_floating fun ⟨ha, hb⟩ => ?_
  rw [canImplicitly, (cast_of_floating ha hb).1] at h
  cases h

theorem cast_ne_iff :
    r.cast a b true ≠ r.cast a b false ↔ r.IsFloating a ∧ r.IsIntegerTarget b := by
  constructor
  · intro hdiffer
    by_contra hnot
    exact hdiffer (cast_true_of_not_floating hnot)
  · rintro ⟨ha, hb⟩ heq
    obtain ⟨hfalse, htrue⟩ := cast_of_floating ha hb
    rw [heq, hfalse] at htrue
    exact absurd htrue (by decide)

/-! Casts one after the other. -/

theorem targetType_eq_sourceType (h : r.targetType b ≠ .string) :
    r.targetType b = sourceType b := by
  by_cases hb : b = .string
  · subst hb
    unfold targetType at h ⊢
    split_ifs at h ⊢
    · rfl
    · exact absurd rfl h
  · rw [targetType_of_ne hb, sourceType_of_ne hb]

theorem Reaches.isNumber_or_eq (h : r.Reaches a b explicit) :
    a = b ∨ (∃ t, r.types.get? a = some t ∧ t.isNumber = true) ∧
      ∃ u, r.types.get? b = some u ∧ u.isNumber = true := by
  rcases h with heq | ⟨t, u, ht, hu, h⟩
  · exact .inl heq
  · exact .inr ⟨⟨t, ht, h.1⟩, u, hu, h.2.1⟩

/-- Without an explicit cast there is no way from a floating number to an integer. -/
theorem Reaches.trans (h : r.Reaches a b false) (h' : r.Reaches b c false) :
    r.Reaches a c false := by
  rcases h with rfl | ⟨t, u, ht, hu, htnumber, hunumber, htu⟩
  · exact h'
  · rcases h' with rfl | ⟨u', v, hu', hv, -, hvnumber, huv⟩
    · exact .inr ⟨t, u, ht, hu, htnumber, hunumber, htu⟩
    · obtain rfl : u = u' := Option.some.inj (hu.symm.trans hu')
      refine .inr ⟨t, v, ht, hv, htnumber, hvnumber, fun htf hvi => ?_⟩
      rcases DataType.isNumber_iff.mp hunumber with hui | huf
      · exact htu htf hui
      · exact huv huf hvi

theorem Admits.trans (h : r.Admits a b false) (h' : r.Admits b c false) : r.Admits a c false := by
  rcases h with rfl | rfl | h
  · exact h'
  · -- `any` is cast to nothing else
    refine .inr (.inl ?_)
    rcases h' with rfl | rfl | h'
    · rfl
    · rfl
    · rcases h'.isNumber_or_eq with heq | ⟨⟨t, ht, hnumber⟩, -⟩
      · exact targetType_eq_any_iff.mp heq.symm
      · exact absurd hnumber (not_isNumber_any ht)
  · rcases h' with rfl | rfl | h'
    · exact .inr (.inr h)
    · exact .inr (.inl rfl)
    · -- nothing is converted into a string, so the target `b` is also the source `b`
      have hstring : r.targetType b ≠ .string := by
        intro hstring
        rcases h.isNumber_or_eq with heq | ⟨-, u, hu, hnumber⟩
        · exact sourceType_ne_string a (heq.trans hstring)
        · exact not_isNumber_string (hstring ▸ hu) hnumber
      rw [targetType_eq_sourceType hstring] at h
      exact .inr (.inr (h.trans h'))

/-! Types that were added. -/

theorem admits_dynamic_iff (hr : r.types.AddsNoNumber) (ha : a.isDynamic = true) :
    r.Admits a b explicit ↔ b = a ∨ b = .any := by
  constructor
  · rintro (rfl | rfl | h)
    · exact .inl rfl
    · exact .inr rfl
    · have hstring : a ≠ .string := by
        rintro rfl
        cases ha
      rw [sourceType_of_ne hstring] at h
      rcases h.isNumber_or_eq with heq | ⟨⟨t, ht, hnumber⟩, -⟩
      · have hb : b ≠ .string := by
          rintro rfl
          unfold targetType at heq
          split_ifs at heq
          · rw [heq] at ha
            cases ha
          · exact hstring heq
        exact .inl ((targetType_of_ne hb).symm.trans heq.symm)
      · exact absurd hnumber (hr.not_isNumber_of_isDynamic ha ht)
  · rintro (rfl | rfl)
    · exact .inl rfl
    · exact .inr (.inl rfl)

theorem eq_of_admits_dynamic (hr : r.types.AddsNoNumber) (hb : b.isDynamic = true)
    (h : r.Admits a b explicit) : a = b := by
  rcases h with rfl | rfl | h
  · rfl
  · cases hb
  · have hstring : b ≠ .string := by
      rintro rfl
      cases hb
    rw [targetType_of_ne hstring] at h
    rcases h.isNumber_or_eq with heq | ⟨-, u, hu, hnumber⟩
    · have ha : a ≠ .string := by
        rintro rfl
        rw [← heq] at hb
        cases hb
      exact (sourceType_of_ne ha).symm.trans heq
    · exact absurd hnumber (hr.not_isNumber_of_isDynamic hb hu)

theorem castConstant_ok_iff (v : UInt64) : (∃ w, r.castConstant v a b = .ok w) ↔
    r.canExplicitly a b = true ∧ (r.cast a b true).kind ≠ .any := by
  unfold castConstant canExplicitly Cast.isValid
  cases hkind : (r.cast a b true).kind with
  | noCast | base => simp
  | any | invalid => simp

/-- The answers about casts agree with each other. -/
structure Coherent (r : CastRules hash) : Prop where
  /-- What can be cast implicitly is cast explicitly in the same way. -/
  cast_true : ∀ a b, r.canImplicitly a b = true → r.cast a b true = r.cast a b false
  cast_ne_iff : ∀ a b, r.cast a b true ≠ r.cast a b false ↔ r.IsFloating a ∧ r.IsIntegerTarget b
  isValid_iff : ∀ a b explicit, (r.cast a b explicit).isValid = true ↔
    (r.cast a b explicit).priority < Cast.impossible
  priority_lt : ∀ a b explicit, (r.cast a b explicit).isValid = true → b ≠ .any →
    (r.cast a b explicit).priority < Cast.anyPriority
  priority_eq_zero_iff : ∀ a b explicit, (r.cast a b explicit).priority = 0 ↔ a = b
  canImplicitly_trans : ∀ a b c, r.canImplicitly a b = true → r.canImplicitly b c = true →
    r.canImplicitly a c = true
  isValid_of_dynamic : ∀ a b explicit, a.isDynamic = true →
    ((r.cast a b explicit).isValid = true ↔ b = a ∨ b = .any)
  eq_of_dynamic : ∀ a b explicit, b.isDynamic = true → (r.cast a b explicit).isValid = true → a = b
  castConstant_iff : ∀ v a b, (∃ w, r.castConstant v a b = .ok w) ↔
    r.canExplicitly a b = true ∧ (r.cast a b true).kind ≠ .any

theorem coherent (hr : r.types.AddsNoNumber) : r.Coherent where
  cast_true a b := cast_true_of_canImplicitly
  cast_ne_iff a b := cast_ne_iff
  isValid_iff a b explicit := isValid_iff_priority_lt hr
  priority_lt a b explicit := priority_lt_of_isValid
  priority_eq_zero_iff a b explicit := (r.cast_resolves a b explicit).priority_eq_zero_iff
  canImplicitly_trans a b c h h' := by
    unfold canImplicitly at *
    rw [isValid_cast_iff hr] at *
    exact h.trans h'
  isValid_of_dynamic a b explicit ha := (isValid_cast_iff hr).trans (admits_dynamic_iff hr ha)
  eq_of_dynamic a b explicit hb h := eq_of_admits_dynamic hr hb ((isValid_cast_iff hr).mp h)
  castConstant_iff v a b := castConstant_ok_iff v

end CastRules

namespace TypeTables

variable {hash : NameHash}

/-- After any calls that add types, the answers about casts agree at every feature level. -/
theorem run_coherent (names : Interner hash) (calls : List TypeCall) (level : Nat) :
    (⟨((new names).run calls).2.types, level⟩ : CastRules hash).Coherent := by
  refine CastRules.coherent (addsNoNumber_run ?_ calls)
  rw [new_types]
  exact fun t ht => absurd ht List.not_mem_nil

end TypeTables
end ScriptFront
