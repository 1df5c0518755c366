import Mathlib.Data.List.Find
import ScriptFront.Proofs.Lookup
import ScriptFront.Proofs.Types.Calls

/-! How a catalogue of types grows. Each type is added once, behind all others, and is found under its
number from then on. -/
namespace ScriptFront

namespace DataType

variable {t : DataType}

theorem exists_of_lt_predefinedCount {n : Nat} (h : n < TypeId.predefinedCount) :
    ∃ t ∈ predefined, predefined[predefinedIndex ⟨n⟩]? = some t ∧ t.id = ⟨n⟩ := by
  have hall : ∀ n < TypeId.predefinedCount,
      ∃ t ∈ predefined, predefined[predefinedIndex ⟨n⟩]? = some t ∧ t.id = ⟨n⟩ := by decide
  exact hall n h

theorem origin?_of_predefined (h : t ∈ predefined) : t.origin? = none := by
  have hall : ∀ t ∈ predefined, t.origin? = none := by decide
  exact hall t h

theorem origin?_eq_arrayOf_iff {element : TypeId} {length : Nat} :
    t.origin? = some (.arrayOf element length) ↔ t.shape = .array element length := by
  unfold origin?
  split <;> simp_all

theorem shape_of_origin? (h : t.origin?.isSome) :
    (∃ indexing, t.shape = .custom indexing) ∨ ∃ element length, t.shape = .array element length := by
  unfold origin? at h
  split at h
  · next hshape => exact .inr ⟨_, _, hshape⟩
  · next hshape => exact .inl ⟨_, hshape⟩
  · cases h

end DataType

namespace Catalogue

variable {hash : NameHash} {c c' : Catalogue hash} {t u : DataType} {id element : TypeId}
  {length : Nat}

/-! The types under their numbers. -/

theorem get?_of_lt (c : Catalogue hash) (h : id.raw < TypeId.predefinedCount) :
    c.get? id = DataType.predefined[DataType.predefinedIndex id]? := by
  rw [get?, TypeId.isPredefined, if_pos (decide_eq_true h)]

theorem get?_of_le (c : Catalogue hash) (h : TypeId.firstDynamic ≤ id.raw) :
    c.get? id = c.added[id.raw - TypeId.firstDynamic]? := by
  have hcount : TypeId.predefinedCount ≤ TypeId.firstDynamic := by decide
  have hnot : ¬ id.raw < TypeId.predefinedCount := Nat.not_lt.mpr (Nat.le_trans hcount h)
  rw [get?, TypeId.isPredefined, if_neg (by simpa using hnot), TypeId.isDynamic,
    if_pos (decide_eq_true h)]

theorem get?_of_between (c : Catalogue hash) (h : TypeId.predefinedCount ≤ id.raw)
    (h' : id.raw < TypeId.firstDynamic) : c.get? id = none := by
  rw [get?, TypeId.isPredefined, if_neg (by simpa using h), TypeId.isDynamic,
    if_neg (by simpa using h')]

theorem get?_eq_none_iff (c : Catalogue hash) : c.get? id = none ↔
    TypeId.predefinedCount ≤ id.raw ∧
      (id.raw < TypeId.firstDynamic ∨ TypeId.firstDynamic + c.added.length ≤ id.raw) := by
  by_cases hlt : id.raw < TypeId.predefinedCount
  · obtain ⟨t, -, hfound, -⟩ := DataType.exists_of_lt_predefinedCount hlt
    rw [c.get?_of_lt hlt, hfound]
    exact iff_of_false (by simp) fun h => Nat.not_lt.mpr h.1 hlt
  · have hle := Nat.not_lt.mp hlt
    by_cases hbetween : id.raw < TypeId.firstDynamic
    · exact iff_of_true (c.get?_of_between hle hbetween) ⟨hle, .inl hbetween⟩
    · rw [c.get?_of_le (Nat.not_lt.mp hbetween), List.getElem?_eq_none_iff]
      omega

theorem get?_of_added (hadded : c'.added = c.added ++ [t]) (id : TypeId) :
    c'.get? id = if id = c.nextId then some t else c.get? id := by
  by_cases hle : TypeId.firstDynamic ≤ id.raw
  · rw [c.get?_of_le hle, c'.get?_of_le hle, hadded]
    by_cases hid : id = c.nextId
    · rw [if_pos hid, hid, nextId, Nat.add_sub_cancel_left, List.getElem?_concat_length]
    · have hne : id.raw - TypeId.firstDynamic ≠ c.added.length := by
        intro heq
        exact hid (congrArg TypeId.mk (by omega : id.raw = TypeId.firstDynamic + c.added.length))
      rw [if_neg hid, List.getElem?_append]
      split_ifs with hlt
      · rfl
      · have hlater : [t].length ≤ id.raw - TypeId.firstDynamic - c.added.length := by
          rw [List.length_singleton]
          omega
        rw [List.getElem?_eq_none hlater, List.getElem?_eq_none (Nat.not_lt.mp hlt)]
  · have hid : id ≠ c.nextId := by
      rintro rfl
      exact hle (Nat.le_add_right _ _)
    rw [if_neg hid]
    by_cases hlt : id.raw < TypeId.predefinedCount
    · rw [c.get?_of_lt hlt, c'.get?_of_lt hlt]
    · have hle' := Nat.not_lt.mp hlt
      rw [c.get?_of_between hle' (Nat.not_le.mp hle), c'.get?_of_between hle' (Nat.not_le.mp hle)]

/-- What is found stays what it is, whatever is added behind. -/
theorem get?_mono (hgrows : c.added <+: c'.added) (h : c.get? id = some t) :
    c'.get? id = some t := by
  by_cases hlt : id.raw < TypeId.predefinedCount
  · rwa [c'.get?_of_lt hlt, ← c.get?_of_lt hlt]
  · by_cases hle : TypeId.firstDynamic ≤ id.raw
    · rw [c.get?_of_le hle] at h
      rw [c'.get?_of_le hle]
      obtain ⟨more, hmore⟩ := hgrows
      rwa [← hmore, List.getElem?_append_left (List.getElem?_eq_some_iff.mp h).1]
    · rw [c.get?_of_between (Nat.not_lt.mp hlt) (Nat.not_le.mp hle)] at h
      cases h

theorem mem_toList_of_get? (h : c.get? id = some t) : t ∈ c.toList := by
  unfold get? at h
  split_ifs at h
  · exact List.mem_append_left _ (List.mem_of_getElem? h)
  · exact List.mem_append_right _ (List.mem_of_getElem? h)

theorem toList_new : (new : Catalogue hash).toList = DataType.predefined := List.append_nil _

namespace Makes

variable {call : TypeCall}

theorem id_eq (h : c.Makes call t c') : t.id = c.nextId := by
  cases h with
  | array | custom => rfl

theorem origin? (h : c.Makes call t c') : t.origin? = some call := by
  cases h with
  | array | custom => rfl

theorem added (h : c.Makes call t c') : c'.added = c.added ++ [t] := by
  cases h with
  | array | custom => rfl

theorem isPrefix (h : c.Makes call t c') : c.added <+: c'.added := ⟨[t], h.added.symm⟩

theorem toList (h : c.Makes call t c') : c'.toList = c.toList ++ [t] := by
  rw [Catalogue.toList, h.added, ← List.append_assoc, Catalogue.toList]

theorem places (h : c.Makes call t c') : c'.places = (hash t.name, c.size) :: c.places := by
  cases h with
  | array | custom => rfl

theorem get? (h : c.Makes call t c') (id : TypeId) :
    c'.get? id = if id = c.nextId then some t else c.get? id := get?_of_added h.added id

end Makes

/-- The catalogues that come from a new one. -/
inductive Grown : Catalogue hash → Prop
  | start : Grown new
  | add {c c' : Catalogue hash} {call : TypeCall} {t : DataType} (h : Grown c)
      (hmakes : c.Makes call t c') : Grown c'

/-- What a type under a number can be. -/
inductive Entry (c : Catalogue hash) (id : TypeId) : DataType → Prop
  | predefined {t : DataType} (ht : t ∈ DataType.predefined) (hid : t.id = id) : Entry c id t
  | custom (name : String) (base : BaseType) (indexing : Option Indexing) :
      Entry c id (.custom name base indexing id)
  | array {element : TypeId} (length : Nat) {t : DataType} (hfound : c.get? element = some t) :
      Entry c id (.array element t length id)

theorem Entry.mono (hgrows : c.added <+: c'.added) (h : c.Entry id t) : c'.Entry id t := by
  cases h with
  | predefined ht hid => exact .predefined ht hid
  | custom => exact .custom _ _ _
  | array length hfound => exact .array length (get?_mono hgrows hfound)

theorem Makes.entry {call : TypeCall} (h : c.Makes call t c') : c'.Entry c.nextId t := by
  have hgrows := h.isPrefix
  cases h with
  | array hfound => exact .array _ (get?_mono hgrows hfound)
  | custom => exact .custom _ _ _

namespace Grown

theorem entry (h : c.Grown) (hid : c.get? id = some t) : c.Entry id t := by
  induction h with
  | start =>
    by_cases hlt : id.raw < TypeId.predefinedCount
    · obtain ⟨u, hu, hfound, hid'⟩ := DataType.exists_of_lt_predefinedCount hlt
      rw [get?_of_lt _ hlt, hfound] at hid
      cases hid
      exact .predefined hu hid'
    · have hnone : (new : Catalogue hash).get? id = none :=
        (get?_eq_none_iff _).mpr ⟨Nat.not_lt.mp hlt, Nat.lt_or_ge _ _⟩
      rw [hnone] at hid
      cases hid
  | add h hmakes ih =>
    rw [hmakes.get?] at hid
    split_ifs at hid with hnext
    · cases hid
      exact hnext ▸ hmakes.entry
    · exact (ih hid).mono hmakes.isPrefix

theorem id_eq (h : c.Grown) (hid : c.get? id = some t) : t.id = id := by
  cases h.entry hid with
  | predefined _ hid => exact hid
  | custom | array => rfl

theorem eq_array (h : c.Grown) (hid : c.get? id = some t)
    (horigin : t.origin? = some (.arrayOf element length)) :
    ∃ u, c.get? element = some u ∧ t = .array element u length id := by
  cases h.entry hid with
  | predefined ht =>
    rw [DataType.origin?_of_predefined ht] at horigin
    cases horigin
  | custom => cases horigin
  | array _ hfound =>
    cases horigin
    exact ⟨_, hfound, rfl⟩

theorem eq_custom (h : c.Grown) (hid : c.get? id = some t) {name : String} {base : BaseType}
    {indexing : Option Indexing} (horigin : t.origin? = some (.defineCustom name base indexing)) :
    t = .custom name base indexing id := by
  cases h.entry hid with
  | predefined ht =>
    rw [DataType.origin?_of_predefined ht] at horigin
    cases horigin
  | custom =>
    cases horigin
    rfl
  | array => cases horigin

/-- Each type that was added has a number of its own, and some call made it. -/
theorem of_mem_added (h : c.Grown) (ht : t ∈ c.added) : c.get? t.id = some t ∧
    TypeId.firstDynamic ≤ t.id.raw ∧ t.id.raw < TypeId.firstDynamic + c.added.length ∧
      t.origin?.isSome := by
  induction h with
  | start => cases ht
  | @add c c' call u h hmakes ih =>
    rw [hmakes.added, List.length_append]
    rw [hmakes.added] at ht
    rcases List.mem_append.mp ht with ht | ht
    · obtain ⟨hfound, hle, hlt, horigin⟩ := ih ht
      exact ⟨get?_mono hmakes.isPrefix hfound, hle, by omega, horigin⟩
    · obtain rfl := List.mem_singleton.mp ht
      rw [hmakes.get?, hmakes.origin?, hmakes.id_eq]
      exact ⟨if_pos rfl, Nat.le_add_right _ _, Nat.lt_succ_self _, rfl⟩

/-- No call makes a type of the language. -/
theorem mem_added_of_origin? (ht : t ∈ c.toList) {call : TypeCall}
    (horigin : t.origin? = some call) : t ∈ c.added := by
  rcases List.mem_append.mp ht with ht | ht
  · rw [DataType.origin?_of_predefined ht] at horigin
    cases horigin
  · exact ht

theorem get?_of_origin? (h : c.Grown) (ht : t ∈ c.toList) {call : TypeCall}
    (horigin : t.origin? = some call) : c.get? t.id = some t :=
  (h.of_mem_added (mem_added_of_origin? ht horigin)).1

theorem mem_arrays_iff (h : c.Grown) : ((element, length), id) ∈ c.arrays ↔
    ∃ t ∈ c.toList, t.id = id ∧ t.shape = .array element length := by
  induction h with
  | start =>
    refine iff_of_false List.not_mem_nil ?_
    rintro ⟨t, ht, -, hshape⟩
    have hadded := mem_added_of_origin? ht (DataType.origin?_eq_arrayOf_iff.mpr hshape)
    cases hadded
  | @add c c' call u h hmakes ih =>
    simp only [hmakes.toList, List.mem_append, List.mem_singleton, or_and_right, exists_or,
      exists_eq_left, ← ih]
    cases hmakes with
    | array =>
      rw [pushArray, List.mem_cons, or_comm]
      refine or_congr_right ?_
      simp [DataType.array, and_comm, eq_comm]
    | custom => simp [push, DataType.custom]

theorem nodup_arrays (h : c.Grown) : (c.arrays.map (·.1)).Nodup := by
  induction h with
  | start => exact List.nodup_nil
  | add h hmakes ih =>
    cases hmakes with
    | array hfound hvoid hany hnew =>
      refine List.nodup_cons.mpr ⟨fun hmem => ?_, ih⟩
      obtain ⟨⟨_, id⟩, hentry, rfl⟩ := List.mem_map.mp hmem
      obtain ⟨t, ht, -, hshape⟩ := h.mem_arrays_iff.mp hentry
      exact hnew t ht hshape
    | custom => exact ih

/-- There is one array of an element and a length. -/
theorem eq_of_shape_eq (h : c.Grown) (ht : t ∈ c.toList) (hu : u ∈ c.toList)
    (htshape : t.shape = .array element length) (hushape : u.shape = .array element length) :
    t = u := by
  have hid : t.id = u.id := by
    have htmem : ((element, length), t.id) ∈ c.arrays := h.mem_arrays_iff.mpr ⟨t, ht, rfl, htshape⟩
    have humem : ((element, length), u.id) ∈ c.arrays := h.mem_arrays_iff.mpr ⟨u, hu, rfl, hushape⟩
    exact congrArg Prod.snd (List.inj_on_of_nodup_map h.nodup_arrays htmem humem rfl)
  have htfound := h.get?_of_origin? ht (DataType.origin?_eq_arrayOf_iff.mpr htshape)
  rw [hid, h.get?_of_origin? hu (DataType.origin?_eq_arrayOf_iff.mpr hushape)] at htfound
  exact (Option.some.inj htfound).symm

theorem find?_arrays_eq_some_iff (h : c.Grown) {entry : (TypeId × Nat) × TypeId} :
    c.arrays.find? (·.1 == (element, length)) = some entry ↔
      entry.1 = (element, length) ∧ ∃ t ∈ c.toList, t.id = entry.2 ∧ t.shape = .array element length := by
  obtain ⟨key, id⟩ := entry
  constructor
  · intro hfind
    obtain rfl : key = (element, length) := by simpa using List.find?_some hfind
    exact ⟨rfl, h.mem_arrays_iff.mp (List.mem_of_find?_eq_some hfind)⟩
  · rintro ⟨rfl, hmade⟩
    exact find?_key_of_nodup h.nodup_arrays (h.mem_arrays_iff.mpr hmade)

theorem find?_arrays_eq_none_iff (h : c.Grown) :
    c.arrays.find? (·.1 == (element, length)) = none ↔
      ∀ t ∈ c.toList, t.shape ≠ .array element length := by
  constructor
  · intro hnone t ht hshape
    have hmem : ((element, length), t.id) ∈ c.arrays := h.mem_arrays_iff.mpr ⟨t, ht, rfl, hshape⟩
    exact List.find?_eq_none.mp hnone _ hmem (beq_self_eq_true _)
  · intro hall
    refine Option.eq_none_iff_forall_ne_some.mpr fun entry hfind => ?_
    obtain ⟨-, t, ht, -, hshape⟩ := h.find?_arrays_eq_some_iff.mp hfind
    exact hall t ht hshape

/-- The places of the names are those of all types, with the latest first. -/
theorem places_eq (h : c.Grown) :
    c.places = (c.toList.zipIdx.map fun (t, i) => (hash t.name, i)).reverse := by
  induction h with
  | start =>
    rw [toList_new]
    rfl
  | add h hmakes ih =>
    rw [hmakes.places, hmakes.toList, List.zipIdx_append, List.map_append, List.reverse_append, ← ih,
      Nat.zero_add]
    rfl

/-- The latest type with the hash of a name. -/
theorem find?_places (h : c.Grown) (name : String) :
    c.find? name = (c.toList.reverse.find? fun t => hash t.name == hash name).filter
      (·.name = name) := by
  have hlist : c.toList.reverse = c.toList.zipIdx.reverse.map (·.1) := by
    rw [List.map_reverse, List.zipIdx_map_fst]
  have hfind : c.toList.reverse.find? (fun t => hash t.name == hash name) =
      (c.toList.zipIdx.reverse.find? fun (t, _) => hash t.name == hash name).map (·.1) := by
    rw [hlist, List.find?_map]
    rfl
  have hplaces : c.places.find? (·.1 == hash name) =
      (c.toList.zipIdx.reverse.find? fun (t, _) => hash t.name == hash name).map
        fun (t, i) => (hash t.name, i) := by
    rw [h.places_eq, ← List.map_reverse, List.find?_map]
    rfl
  rw [find?, hplaces, hfind]
  rcases hentry : c.toList.zipIdx.reverse.find? _ with _ | ⟨t, i⟩
  · rfl
  · have hmem : (t, i) ∈ c.toList.zipIdx := List.mem_reverse.mp (List.mem_of_find?_eq_some hentry)
    have hplace : c.toList[i]? = some t := List.mem_zipIdx_iff_getElem?.mp hmem
    simp [hplace, Option.filter]

/-- A name stands for the latest type of that name, if no two names have one hash. -/
theorem find?_eq (h : c.Grown)
    (hinj : ∀ t ∈ c.toList, ∀ u ∈ c.toList, hash t.name = hash u.name → t.name = u.name)
    (name : String) : c.find? name = c.toList.reverse.find? (·.name == name) := by
  rw [h.find?_places]
  by_cases hknown : ∃ t ∈ c.toList, t.name = name
  · obtain ⟨t, ht, rfl⟩ := hknown
    have hsame : c.toList.reverse.find? (fun u => hash u.name == hash t.name) =
        c.toList.reverse.find? (·.name == t.name) := by
      refine List.find?_congr fun u hu => Bool.eq_iff_iff.mpr ?_
      rw [beq_iff_eq, beq_iff_eq]
      exact ⟨hinj u (List.mem_reverse.mp hu) t ht, congrArg hash⟩
    rw [hsame]
    refine Option.ext fun u => Option.filter_eq_some_iff.trans (and_iff_left_of_imp fun hu => ?_)
    simpa using List.find?_some hu
  · have hnone : c.toList.reverse.find? (·.name == name) = none := by
      refine List.find?_eq_none.mpr fun u hu heq => hknown ?_
      exact ⟨u, List.mem_reverse.mp hu, by simpa using heq⟩
    rw [hnone, Option.filter_eq_none_iff]
    intro u hu heq
    exact hknown ⟨u, List.mem_reverse.mp (List.mem_of_find?_eq_some hu), by simpa using heq⟩

end Grown

end Catalogue
end ScriptFront
