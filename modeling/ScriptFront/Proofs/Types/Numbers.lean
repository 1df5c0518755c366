import ScriptFront.Proofs.Types.Growth
import ScriptFront.Proofs.Types.Ranking

/-! Numbers and the conversions between them. The only conversion that has to be explicit is of a
floating number into an integer, and all of them are better than a cast to `any`. -/
namespace ScriptFront

theorem IntWidth.rank_le (w : IntWidth) : w.rank ≤ 3 := by cases w <;> decide

theorem BaseType.widthRank_le (b : BaseType) : b.widthRank ≤ 3 := by
  cases b with
  | integer signed width => exact width.rank_le
  | void | intConst | float | double => decide

theorem Conversion.between?_eq_none_iff (source target : BaseType) :
    between? source target = none ↔ source = .void ∨ target = .void := by
  cases source <;> cases target <;> simp [between?, decided]

namespace Cast

theorem ofBases_eq_invalid_iff (source target : BaseType) :
    ofBases source target = .invalid ↔ source = .void ∨ target = .void := by
  rw [← Conversion.between?_eq_none_iff]
  unfold ofBases
  split <;> simp_all

theorem ofBases_ne_any (source target : BaseType) : ofBases source target ≠ .any := by
  unfold ofBases
  split <;> simp

theorem integerPriority_lt (s : Bool) (w : IntWidth) (role : IntegerRole) (s' : Bool)
    (w' : IntWidth) (role' : IntegerRole) : integerPriority s w role s' w' role' < anyPriority := by
  have hw := w.rank_le
  have hw' := w'.rank_le
  unfold integerPriority anyPriority
  dsimp only
  split_ifs <;> omega

end Cast

namespace DataType

variable {t u : DataType}

/-- The types whose values are converted into each other. -/
def isNumber (t : DataType) : Bool := t.isInteger || t.isFloating

theorem isInteger_iff :
    t.isInteger = true ↔ ∃ signed width role, t.shape = .integer signed width role := by
  unfold isInteger
  split <;> simp_all

theorem isFloating_iff : t.isFloating = true ↔ t.shape = .floating := by
  rw [isFloating, beq_iff_eq]

theorem not_isInteger_of_isFloating (h : t.isFloating = true) : ¬ t.isInteger = true := by
  rw [isInteger_iff, isFloating_iff.mp h]
  rintro ⟨_, _, _, hshape⟩
  cases hshape

theorem isNumber_iff : t.isNumber = true ↔ t.isInteger = true ∨ t.isFloating = true := by
  rw [isNumber, Bool.or_eq_true]

theorem base_ne_void (ht : t ∈ predefined) (hnumber : t.isNumber = true) : t.base ≠ .void := by
  have hall : ∀ t ∈ predefined, t.isNumber = true → t.base ≠ .void := by decide
  exact hall t ht hnumber

end DataType

namespace Catalogue

variable {hash : NameHash} {c : Catalogue hash} {id : TypeId} {t : DataType}

/-- The numbers are types of the language. -/
def AddsNoNumber (c : Catalogue hash) : Prop := ∀ t ∈ c.added, t.isNumber = false

theorem AddsNoNumber.mem_predefined (h : c.AddsNoNumber) (hfound : c.get? id = some t)
    (hnumber : t.isNumber = true) : t ∈ DataType.predefined := by
  rcases List.mem_append.mp (mem_toList_of_get? hfound) with hpredefined | hadded
  · exact hpredefined
  · rw [h t hadded] at hnumber
    cases hnumber

theorem AddsNoNumber.not_isNumber_of_isDynamic (h : c.AddsNoNumber) (hid : id.isDynamic = true)
    (hfound : c.get? id = some t) : ¬ t.isNumber = true := by
  rw [c.get?_of_le (of_decide_eq_true hid)] at hfound
  rw [h t (List.mem_of_getElem? hfound)]
  exact Bool.false_ne_true

end Catalogue

namespace TypeTables

variable {hash : NameHash} {s : TypeTables hash}

theorem addsNoNumber_add (h : s.types.AddsNoNumber) {make : TypeId → DataType}
    (hmake : ∀ id, (make id).isNumber = false) : (s.add make).2.types.AddsNoNumber := by
  unfold add
  dsimp only
  split_ifs
  · exact h
  · split
    · exact h
    · intro t ht
      rcases List.mem_append.mp ht with ht | ht
      · exact h t ht
      · rw [List.mem_singleton.mp ht]
        exact hmake _

theorem addsNoNumber_arrayOf (h : s.types.AddsNoNumber) (element : TypeId) (length : Nat) :
    (s.arrayOf element length).2.types.AddsNoNumber := by
  unfold arrayOf
  split
  · exact h
  · split
    · exact h
    · next t _ =>
      split_ifs
      · exact h
      · have harray (id : TypeId) : (DataType.array element t length id).isNumber = false := rfl
        have hadd := addsNoNumber_add h harray
        split
        · next hrun =>
          rw [hrun] at hadd
          exact hadd
        · next hrun =>
          rw [hrun] at hadd
          exact hadd

theorem addsNoNumber_answer (h : s.types.AddsNoNumber) (call : TypeCall) :
    (s.answer call).2.types.AddsNoNumber := by
  cases call with
  | arrayOf element length => exact addsNoNumber_arrayOf h element length
  | defineCustom name base indexing =>
    show (s.defineCustom name base indexing).2.types.AddsNoNumber
    unfold defineCustom
    split_ifs
    · exact h
    · exact addsNoNumber_add h fun _ => rfl
  | get id =>
    unfold answer
    dsimp only
    split <;> exact h
  | find name =>
    unfold answer
    dsimp only
    split <;> exact h
  | intern text =>
    unfold answer
    dsimp only
    split <;> exact h

theorem addsNoNumber_run (h : s.types.AddsNoNumber) (calls : List TypeCall) :
    (s.run calls).2.types.AddsNoNumber := by
  induction calls generalizing s with
  | nil => exact h
  | cons call calls ih => exact ih (addsNoNumber_answer h call)

theorem addsNoNumber_run_new (names : Interner hash) (calls : List TypeCall) :
    ((new names).run calls).2.types.AddsNoNumber := by
  refine addsNoNumber_run ?_ calls
  rw [new_types]
  exact fun t ht => absurd ht List.not_mem_nil

end TypeTables

namespace CastRules

variable {t u : DataType} {explicit : Bool}

/-- The types are numbers, and the cast is none that has to be explicit and is not. -/
def Converts (t u : DataType) (explicit : Bool) : Prop :=
  t.isNumber = true ∧ u.isNumber = true ∧
    (t.isFloating = true → u.isInteger = true → explicit = true)

theorem between_of_converts (h : Converts t u explicit) :
    ∃ priority, between t u explicit = ⟨Cast.ofBases t.base u.base, priority⟩ ∧ 0 < priority ∧
      priority < Cast.anyPriority := by
  obtain ⟨ht, hu, hexplicit⟩ := h
  have htrank := t.base.widthRank_le
  have hurank := u.base.widthRank_le
  rcases DataType.isNumber_iff.mp ht with hti | htf <;>
    rcases DataType.isNumber_iff.mp hu with hui | huf
  · obtain ⟨s, w, role, htshape⟩ := DataType.isInteger_iff.mp hti
    obtain ⟨s', w', role', hushape⟩ := DataType.isInteger_iff.mp hui
    refine ⟨Cast.integerPriority s w role s' w' role', ?_, integerPriority_pos ..,
      Cast.integerPriority_lt ..⟩
    simp only [between, htshape, hushape]
  · obtain ⟨s, w, role, htshape⟩ := DataType.isInteger_iff.mp hti
    have hushape := DataType.isFloating_iff.mp huf
    refine ⟨Cast.intToFloatPriority + t.base.widthRank, ?_, Nat.add_pos_left (by decide) _, ?_⟩
    · simp only [between, htshape, hushape]
    · unfold Cast.intToFloatPriority Cast.anyPriority
      omega
  · have htshape := DataType.isFloating_iff.mp htf
    obtain ⟨s', w', role', hushape⟩ := DataType.isInteger_iff.mp hui
    refine ⟨Cast.floatToIntPriority - u.base.widthRank, ?_, ?_, ?_⟩
    · simp only [between, htshape, hushape, hexplicit htf hui, if_true]
    · unfold Cast.floatToIntPriority
      omega
    · unfold Cast.floatToIntPriority Cast.anyPriority
      omega
  · have htshape := DataType.isFloating_iff.mp htf
    have hushape := DataType.isFloating_iff.mp huf
    refine ⟨Cast.floatToDoublePriority, ?_, by decide, by decide⟩
    simp only [between, htshape, hushape]

theorem between_of_not_converts (h : ¬Converts t u explicit) : between t u explicit = .invalid := by
  have hint {t : DataType} {signed width role} (hshape : t.shape = .integer signed width role) :
      t.isInteger = true := DataType.isInteger_iff.mpr ⟨_, _, _, hshape⟩
  have hfloat {t : DataType} (hshape : t.shape = .floating) : t.isFloating = true :=
    DataType.isFloating_iff.mpr hshape
  have hnot {t : DataType} (hshape : t.isFloating = true) :=
    DataType.not_isInteger_of_isFloating hshape
  unfold between
  split
  · next ht hu =>
    refine absurd ⟨?_, ?_, fun htf => absurd (hint ht) (hnot htf)⟩ h
    · exact DataType.isNumber_iff.mpr (.inl (hint ht))
    · exact DataType.isNumber_iff.mpr (.inl (hint hu))
  · next ht hu =>
    refine absurd ⟨?_, ?_, fun htf => absurd (hint ht) (hnot htf)⟩ h
    · exact DataType.isNumber_iff.mpr (.inl (hint ht))
    · exact DataType.isNumber_iff.mpr (.inr (hfloat hu))
  · next ht hu =>
    cases explicit with
    | true =>
      refine absurd ⟨?_, ?_, fun _ _ => rfl⟩ h
      · exact DataType.isNumber_iff.mpr (.inr (hfloat ht))
      · exact DataType.isNumber_iff.mpr (.inl (hint hu))
    | false => rfl
  · next ht hu =>
    refine absurd ⟨?_, ?_, fun _ hui => absurd hui (hnot (hfloat hu))⟩ h
    · exact DataType.isNumber_iff.mpr (.inr (hfloat ht))
    · exact DataType.isNumber_iff.mpr (.inr (hfloat hu))
  · rfl

/-- Whether it is explicit plays no part in any other conversion. -/
theorem between_true (h : ¬ (t.isFloating = true ∧ u.isInteger = true)) :
    between t u true = between t u false := by
  unfold between
  split
  any_goals rfl
  next ht hu =>
    exact absurd ⟨DataType.isFloating_iff.mpr ht, DataType.isInteger_iff.mpr ⟨_, _, _, hu⟩⟩ h

end CastRules
end ScriptFront
