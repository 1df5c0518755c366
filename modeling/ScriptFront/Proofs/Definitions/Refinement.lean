import ScriptFront.Proofs.Definitions.Buckets
import ScriptFront.Proofs.Definitions.NameMap

/-! Definitions as a finite map from names to values. Main statement: whatever the hash, all answers
are those of a map that is keyed by the names themselves. -/
namespace ScriptFront

namespace Definitions

variable {hash : NameHash} {d : Definitions hash} {m : NameMap}

/-- The definitions are those of the map. The buckets do not matter. -/
structure Represents (d : Definitions hash) (m : NameMap) : Prop where
  hashed : HashedBuckets hash d.buckets
  mem_iff : ∀ e, e ∈ d.toList ↔ e ∈ m.definitions
  size : d.size = m.keys.card

theorem empty_represents : (empty : Definitions hash).Represents ∅ := by
  constructor
  · exact HashedBuckets.nil
  · intro e
    simp [NameMap.mem_definitions, toList, empty]
  · rfl

def answer (d : Definitions hash) : DefinitionCall → DefinitionAnswer × Definitions hash
  | .set name value =>
    let (old, d') := d.set name value
    (.previous old, d')
  | .remove name =>
    let (old, d') := d.remove name
    (.definition old, d')
  | .extend pairs => (.done, d.extend pairs)
  | .get name => (.definition (d.get? name), d)
  | .value name => (.value (d.value name), d)
  | .contains name => (.truth (d.contains name), d)
  | .size => (.count d.size, d)
  | .isEmpty => (.truth d.isEmpty, d)
  | .all => (.all d.toList, d)

namespace Represents

theorem get?_eq (h : d.Represents m) (name : String) : d.get? name = m.get? name := by
  refine Option.ext fun e => ?_
  rw [get?_eq_some_iff h.hashed, NameMap.get?_eq_some_iff, h.mem_iff]

theorem mem_keys_iff (h : d.Represents m) (name : String) :
    name ∈ m.keys ↔ (d.get? name).isSome := by
  rw [h.get?_eq, NameMap.get?, Option.isSome_map, Finmap.lookup_isSome, Finmap.mem_keys]

theorem previous_set (h : d.Represents m) (name : String) (value : Int64) :
    (d.set name value).1 = m.lookup name := by
  have hvalue : (d.get? name).map (·.value) = m.lookup name := by
    rw [h.get?_eq, NameMap.get?, Option.map_map]
    exact Option.map_id'
  rw [← hvalue, set]
  cases d.get? name <;> rfl

theorem set (h : d.Represents m) (name : String) (value : Int64) :
    (d.set name value).2.Represents (m.insert name value) := by
  constructor
  · exact hashed_set h.hashed name value
  · intro e
    rw [mem_toList_set h.hashed, h.mem_iff, NameMap.mem_definitions_insert]
  · rw [NameMap.keys_insert, Definitions.set]
    rcases hget : d.get? name with _ | old
    · have hnew : name ∉ m.keys := by
        rw [h.mem_keys_iff, hget]
        simp
      rw [Finset.card_insert_of_notMem hnew, ← h.size]
    · have hold : name ∈ m.keys := by
        rw [h.mem_keys_iff, hget]
        rfl
      rw [Finset.insert_eq_of_mem hold, ← h.size]

theorem removed (h : d.Represents m) (name : String) : (d.remove name).1 = m.get? name := by
  rw [← h.get?_eq]
  rcases d.remove_cases name with ⟨hnone, hrun⟩ | ⟨old, hold, hrun⟩
  · rw [hrun, hnone]
  · rw [hrun, hold]

theorem remove (h : d.Represents m) (name : String) :
    (d.remove name).2.Represents (m.erase name) := by
  constructor
  · exact hashed_remove h.hashed name
  · intro e
    rw [mem_toList_remove h.hashed, h.mem_iff, NameMap.mem_definitions_erase]
  · rw [Finmap.keys_erase]
    rcases d.remove_cases name with ⟨hnone, hrun⟩ | ⟨old, hold, hrun⟩
    · have hnew : name ∉ m.keys := by
        rw [h.mem_keys_iff, hnone]
        simp
      rw [hrun, Finset.erase_eq_of_notMem hnew, ← h.size]
    · have hin : name ∈ m.keys := by
        rw [h.mem_keys_iff, hold]
        rfl
      rw [hrun, Finset.card_erase_of_mem hin, ← h.size]

theorem extend (h : d.Represents m) (pairs : List (String × Int64)) :
    (d.extend pairs).Represents (pairs.foldl (fun m (name, value) => m.insert name value) m) := by
  induction pairs generalizing d m with
  | nil => exact h
  | cons pair pairs ih => exact ih (h.set pair.1 pair.2)

theorem toList_eq (h : d.Represents m) : (d.toList : Multiset Definition) = m.definitions := by
  have hnodup : (d.toList : Multiset Definition).Nodup := (nodup_toList h.hashed).of_map _
  exact (hnodup.ext m.nodup_definitions).mpr h.mem_iff

theorem value_eq (h : d.Represents m) (name : String) : d.value name = (m.lookup name).getD 0 := by
  rw [value, h.get?_eq, NameMap.get?]
  cases m.lookup name <;> rfl

theorem contains_eq (h : d.Represents m) (name : String) : d.contains name = decide (name ∈ m) := by
  rw [contains, Bool.eq_iff_iff, ← h.mem_keys_iff, Finmap.mem_keys, decide_eq_true_iff]

theorem isEmpty_eq (h : d.Represents m) : d.isEmpty = decide (m = ∅) := by
  rw [isEmpty, h.size, Bool.eq_iff_iff, decide_eq_true_iff, NameMap.eq_empty_iff, beq_iff_eq]

/-- One call is answered as by the map. -/
theorem answer (h : d.Represents m) (call : DefinitionCall) :
    (d.answer call).1 = (m.answer call).1 ∧ (d.answer call).2.Represents (m.answer call).2 := by
  cases call with
  | set name value => exact ⟨congrArg _ (h.previous_set name value), h.set name value⟩
  | remove name => exact ⟨congrArg _ (h.removed name), h.remove name⟩
  | extend pairs => exact ⟨rfl, h.extend pairs⟩
  | get name => exact ⟨congrArg _ (h.get?_eq name), h⟩
  | value name => exact ⟨congrArg DefinitionAnswer.value (h.value_eq name), h⟩
  | contains name => exact ⟨congrArg DefinitionAnswer.truth (h.contains_eq name), h⟩
  | size => exact ⟨congrArg _ h.size, h⟩
  | isEmpty => exact ⟨congrArg DefinitionAnswer.truth h.isEmpty_eq, h⟩
  | all => exact ⟨congrArg _ h.toList_eq, h⟩

theorem run (h : d.Represents m) (calls : List DefinitionCall) :
    (DefinitionCall.run Definitions.answer d calls).1 = (DefinitionCall.run NameMap.answer m calls).1 ∧
      (DefinitionCall.run Definitions.answer d calls).2.Represents
        (DefinitionCall.run NameMap.answer m calls).2 := by
  induction calls generalizing d m with
  | nil => exact ⟨rfl, h⟩
  | cons call calls ih =>
    obtain ⟨hanswer, hnext⟩ := h.answer call
    obtain ⟨hanswers, hlast⟩ := ih hnext
    exact ⟨congrArg₂ _ hanswer hanswers, hlast⟩

end Represents

/-- Whatever the hash and the calls, all answers are those of a map from names to values. After them
each defined name is listed once, and the size is the number of defined names. -/
theorem run_eq_nameMap (calls : List DefinitionCall) :
    let r := DefinitionCall.run answer (empty : Definitions hash) calls
    r.1 = (DefinitionCall.run NameMap.answer ∅ calls).1 ∧
      (r.2.toList.map (·.name)).Nodup ∧
      (∀ name, name ∈ r.2.toList.map (·.name) ↔ r.2.contains name) ∧
      r.2.size = r.2.toList.length := by
  intro r
  have hempty : (empty : Definitions hash).Represents ∅ := empty_represents
  obtain ⟨hanswers, h⟩ := hempty.run calls
  have hsize : r.2.size = r.2.toList.length := by
    rw [h.size, ← NameMap.card_definitions, ← h.toList_eq, Multiset.coe_card]
  exact ⟨hanswers, nodup_toList h.hashed, fun name => (isSome_get?_iff h.hashed).symm, hsize⟩

end Definitions
end ScriptFront
