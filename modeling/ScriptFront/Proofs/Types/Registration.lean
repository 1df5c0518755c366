import ScriptFront.Proofs.Types.Growth

/-! One call to a catalogue of types. It adds one type under the next number, or it leaves the
catalogue as it is, and a call that fails leaves the table of names as it is too. -/
namespace ScriptFront

namespace TypeTables

variable {hash : NameHash} {s s' : TypeTables hash} {call : TypeCall} {answer : TypeAnswer}
  {t : DataType} {c : Catalogue hash}

/-- The tables are those after some calls. -/
structure Valid (s : TypeTables hash) : Prop where
  grown : s.types.Grown
  knows : ∀ t ∈ s.types.toList, s.names.Knows t.name

namespace Valid

theorem find?_eq (h : s.Valid) (name : String) :
    s.types.find? name = s.types.toList.reverse.find? (·.name == name) :=
  h.grown.find?_eq (fun t ht u hu => (h.knows t ht).eq_of_hash_eq (h.knows u hu)) name

theorem find?_eq_none_iff (h : s.Valid) {name : String} :
    s.types.find? name = none ↔ ∀ t ∈ s.types.toList, t.name ≠ name := by
  rw [h.find?_eq, List.find?_eq_none]
  simp

end Valid

/-- The type is added, or there is no number left for it or its name is refused. -/
theorem outcome_add (make : TypeId → DataType) (h : s.types.Makes call (make s.types.nextId) c) :
    (∃ names, s.add make = (.ok s.types.nextId, ⟨s.types.push (make s.types.nextId), names⟩) ∧
      s.Outcome call (.made s.types.nextId) ⟨c, names⟩) ∨
    ∃ e, s.add make = (.error e, s) ∧ s.Outcome call (.failed e) s := by
  unfold add
  dsimp only
  split_ifs with hfull
  · rw [← h.id_eq] at hfull
    exact .inr ⟨_, rfl, .failed (.tooManyTypes h hfull)⟩
  · rw [← h.id_eq, Nat.not_le] at hfull
    rcases hname : s.names.intern (make s.types.nextId).name with collision | ⟨name, names⟩
    · exact .inr ⟨_, rfl, .failed (.refusedName h hname)⟩
    · have hmade := Outcome.made h hfull hname
      rw [h.id_eq] at hmade
      exact .inl ⟨names, rfl, hmade⟩

theorem outcome_arrayOf (h : s.Valid) (element : TypeId) (length : Nat) :
    s.Outcome (.arrayOf element length) (.ofMade (s.arrayOf element length).1)
      (s.arrayOf element length).2 := by
  rcases hfind : s.types.arrays.find? (·.1 == (element, length)) with _ | ⟨key, id⟩
  · have hnew := h.grown.find?_arrays_eq_none_iff.mp hfind
    rcases hfound : s.types.get? element with _ | t <;> simp only [arrayOf, hfind, Catalogue.get, hfound]
    · exact .failed (.unknownElement hfound)
    · split_ifs with hshape
      · exact .failed (.invalidElement hfound hshape)
      · obtain ⟨hvoid, hany⟩ := not_or.mp hshape
        rcases outcome_add (.array element t length) (.array hfound hvoid hany hnew) with
          ⟨names, hrun, hmade⟩ | ⟨e, hrun, hfailed⟩
        · rw [hrun]
          exact hmade
        · rw [hrun]
          exact hfailed
  · obtain ⟨-, t, ht, rfl, hshape⟩ := h.grown.find?_arrays_eq_some_iff.mp hfind
    simp only [arrayOf, hfind]
    exact .again ht hshape

theorem outcome_defineCustom (h : s.Valid) (name : String) (base : BaseType)
    (indexing : Option Indexing) :
    s.Outcome (.defineCustom name base indexing) (.ofMade (s.defineCustom name base indexing).1)
      (s.defineCustom name base indexing).2 := by
  rcases hfind : s.types.find? name with _ | t
  · have hnew := h.find?_eq_none_iff.mp hfind
    rw [defineCustom, hfind, Option.isSome_none, if_neg Bool.false_ne_true]
    rcases outcome_add (.custom name base indexing) (.custom hnew) with
      ⟨names, hrun, hmade⟩ | ⟨e, hrun, hfailed⟩
    · rw [hrun]
      exact hmade
    · rw [hrun]
      exact hfailed
  · have hname : ∃ t ∈ s.types.toList, t.name = name := by
      by_contra hnone
      rw [h.find?_eq_none_iff.mpr (by simpa using hnone)] at hfind
      cases hfind
    rw [defineCustom, hfind, Option.isSome_some, if_pos rfl]
    exact .failed (.duplicateName hname)

/-- All that a call can do. -/
theorem Valid.outcome (h : s.Valid) (call : TypeCall) :
    s.Outcome call (s.answer call).1 (s.answer call).2 := by
  cases call with
  | arrayOf element length => exact outcome_arrayOf h element length
  | defineCustom name base indexing => exact outcome_defineCustom h name base indexing
  | get id =>
    rcases hfound : s.types.get? id with _ | t
    · simp only [answer, Catalogue.get, hfound]
      exact .failed (.unknownType hfound)
    · simp only [answer, Catalogue.get, hfound]
      exact .got hfound
  | find name =>
    rcases hfound : s.types.find? name with _ | t
    · simp only [answer, hfound]
      exact .absent (h.find?_eq_none_iff.mp hfound)
    · simp only [answer, hfound]
      exact .found (h.find?_eq name ▸ hfound)
  | intern text =>
    rcases hname : s.names.intern text with collision | ⟨name, names⟩
    · simp only [answer, hname]
      exact .failed (.refusedText hname)
    · simp only [answer, hname]
      exact .entered hname

theorem Outcome.valid (h : s.Outcome call answer s') (hs : s.Valid) : s'.Valid := by
  cases h with
  | @made t _ _ _ _ hmakes _ hname =>
    obtain ⟨hnew, hold⟩ := Interner.knows_of_intern hname
    refine ⟨hs.grown.add hmakes, fun u hu => ?_⟩
    rw [hmakes.toList] at hu
    rcases List.mem_append.mp hu with hu | hu
    · exact hold _ (hs.knows u hu)
    · rw [List.mem_singleton.mp hu]
      exact hnew
  | entered hname => exact ⟨hs.grown, fun u hu => (Interner.knows_of_intern hname).2 _ (hs.knows u hu)⟩
  | _ => exact hs

/-- A call that made a type added it, or the type was made before. -/
theorem Outcome.of_made {id : TypeId} (h : s.Outcome call (.made id) s') :
    (id = s.types.nextId ∧ ∃ t, t.id = id ∧ s'.types.added = s.types.added ++ [t]) ∨
      s' = s ∧ ∃ t ∈ s.types.toList, t.id = id ∧ t.origin? = some call := by
  cases h with
  | made hmakes => exact .inl ⟨hmakes.id_eq, _, rfl, hmakes.added⟩
  | again ht hshape => exact .inr ⟨rfl, _, ht, rfl, DataType.origin?_eq_arrayOf_iff.mpr hshape⟩

theorem Outcome.eq_of_failed {e : TypeError} (h : s.Outcome call (.failed e) s') : s' = s := by
  cases h with
  | failed => rfl

theorem Outcome.isPrefix (h : s.Outcome call answer s') : s.types.added <+: s'.types.added := by
  cases h with
  | made hmakes => exact hmakes.isPrefix
  | _ => exact List.prefix_rfl

/-- After any calls all types that were there are still there. -/
theorem run_grows (h : s.Valid) (calls : List TypeCall) :
    (s.run calls).2.Valid ∧ s.types.added <+: (s.run calls).2.types.added := by
  induction calls generalizing s with
  | nil => exact ⟨h, List.prefix_rfl⟩
  | cons call calls ih =>
    have houtcome := h.outcome call
    obtain ⟨hvalid, hgrows⟩ := ih (houtcome.valid h)
    exact ⟨hvalid, houtcome.isPrefix.trans hgrows⟩

end TypeTables
end ScriptFront
