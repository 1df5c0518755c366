import ScriptFront.Proofs.Types.Registration

/-! Types as they were asked for. Main statement: after any calls the catalogue has one type for each
call that made one, in the order of the calls, and no further call changes what is in it. -/
namespace ScriptFront

open Catalogue (Grown)

namespace TypeTables

variable {hash : NameHash} {s s' : TypeTables hash} {past events : List (TypeCall × TypeAnswer)}
  {call : TypeCall} {answer : TypeAnswer}

/-- The types that were made are those in the catalogue that come from a call. -/
def Logged (past : List (TypeCall × TypeAnswer)) (c : Catalogue hash) : Prop :=
  ∀ call id, (call, .made id) ∈ past ↔ ∃ t ∈ c.toList, t.id = id ∧ t.origin? = some call

theorem logged_new : Logged [] (.new : Catalogue hash) := by
  intro call id
  refine iff_of_false List.not_mem_nil ?_
  rintro ⟨t, ht, -, horigin⟩
  cases Grown.mem_added_of_origin? ht horigin

theorem Outcome.logged (h : s.Outcome call answer s') (hpast : Logged past s.types) :
    Logged (past ++ [(call, answer)]) s'.types := by
  intro call' id
  rw [List.mem_append, List.mem_singleton, Prod.mk.injEq, hpast]
  cases h with
  | made hmakes =>
    simp only [hmakes.toList, List.mem_append, List.mem_singleton, or_and_right, exists_or,
      exists_eq_left, hmakes.origin?, TypeAnswer.made.injEq, Option.some.injEq]
    refine or_congr_right ?_
    simp only [and_comm, eq_comm]
  | again ht hshape =>
    refine or_iff_left_of_imp ?_
    rintro ⟨rfl, hid⟩
    cases hid
    exact ⟨_, ht, rfl, DataType.origin?_eq_arrayOf_iff.mpr hshape⟩
  | failed | got | found | absent | entered => simp

theorem logged_run (h : s.Valid) (hpast : Logged past s.types) (calls : List TypeCall) :
    Logged (past ++ (s.run calls).1) (s.run calls).2.types := by
  induction calls generalizing s past with
  | nil => rwa [run, List.append_nil]
  | cons call calls ih =>
    have houtcome := h.outcome call
    have hlogged := ih (houtcome.valid h) (houtcome.logged hpast)
    rwa [List.append_assoc] at hlogged

/-- What the catalogue has of the calls that made types. -/
structure Records (past : List (TypeCall × TypeAnswer)) (c : Catalogue hash) : Prop where
  /-- The numbers of the types that were made have no gaps. -/
  made_iff : ∀ id, (∃ call, (call, .made id) ∈ past) ↔
    TypeId.firstDynamic ≤ id.raw ∧ id.raw < TypeId.firstDynamic + c.added.length
  array : ∀ element length id, (.arrayOf element length, .made id) ∈ past →
    ∃ t, c.get? element = some t ∧ c.get? id = some
      { id, name := s!"{t.name}[{length}]", shape := .array element length,
        bytes := min (t.bytes * length) (UInt64.size - 1), base := t.base }
  custom : ∀ name base indexing id, (.defineCustom name base indexing, .made id) ∈ past →
    c.get? id = some { id, name, shape := .custom indexing, bytes := base.bytes, base }
  /-- There is one array for each element and length. -/
  eq_iff : ∀ element length id element' length' id',
    (.arrayOf element length, .made id) ∈ past → (.arrayOf element' length', .made id') ∈ past →
    (id = id' ↔ element = element' ∧ length = length')
  id_eq : ∀ id t, c.get? id = some t → t.id = id
  get?_eq_none_iff : ∀ id, c.get? id = none ↔
    TypeId.predefinedCount ≤ id.raw ∧ ∀ call, (call, .made id) ∉ past

namespace Logged

variable {c : Catalogue hash}

theorem get?_of_made (h : Logged past c) (hc : c.Grown) {id : TypeId}
    (hmade : (call, .made id) ∈ past) : ∃ t, c.get? id = some t ∧ t.origin? = some call := by
  obtain ⟨t, ht, rfl, horigin⟩ := (h call id).mp hmade
  exact ⟨t, hc.get?_of_origin? ht horigin, horigin⟩

theorem made_iff (h : Logged past c) (hc : c.Grown) (id : TypeId) :
    (∃ call, (call, .made id) ∈ past) ↔
      TypeId.firstDynamic ≤ id.raw ∧ id.raw < TypeId.firstDynamic + c.added.length := by
  constructor
  · rintro ⟨call, hmade⟩
    obtain ⟨t, ht, rfl, horigin⟩ := (h call id).mp hmade
    obtain ⟨-, hle, hlt, -⟩ := hc.of_mem_added (Grown.mem_added_of_origin? ht horigin)
    exact ⟨hle, hlt⟩
  · rintro ⟨hle, hlt⟩
    have hplace : id.raw - TypeId.firstDynamic < c.added.length := by omega
    have hfound : c.get? id = some c.added[id.raw - TypeId.firstDynamic] := by
      rw [c.get?_of_le hle, List.getElem?_eq_getElem hplace]
    have hmem := List.getElem_mem hplace
    obtain ⟨call, horigin⟩ := Option.isSome_iff_exists.mp (hc.of_mem_added hmem).2.2.2
    exact ⟨call, (h call id).mpr ⟨_, List.mem_append_right _ hmem, hc.id_eq hfound, horigin⟩⟩

theorem records (h : Logged past c) (hc : c.Grown) : Records past c := by
  constructor
  case made_iff => exact h.made_iff hc
  case array =>
    intro element length id hmade
    obtain ⟨t, hid, horigin⟩ := h.get?_of_made hc hmade
    obtain ⟨u, hfound, rfl⟩ := hc.eq_array hid horigin
    exact ⟨u, hfound, hid⟩
  case custom =>
    intro name base indexing id hmade
    obtain ⟨t, hid, horigin⟩ := h.get?_of_made hc hmade
    rw [hid, hc.eq_custom hid horigin]
    rfl
  case eq_iff =>
    intro element length id element' length' id' hmade hmade'
    obtain ⟨t, ht, rfl, horigin⟩ := (h _ _).mp hmade
    obtain ⟨u, hu, rfl, horigin'⟩ := (h _ _).mp hmade'
    constructor
    · intro hid
      have htfound := hc.get?_of_origin? ht horigin
      rw [hid, hc.get?_of_origin? hu horigin'] at htfound
      obtain rfl := Option.some.inj htfound
      rw [horigin] at horigin'
      cases horigin'
      exact ⟨rfl, rfl⟩
    · rintro ⟨rfl, rfl⟩
      rw [DataType.origin?_eq_arrayOf_iff] at horigin horigin'
      rw [hc.eq_of_shape_eq ht hu horigin horigin']
  case id_eq => exact fun id t => hc.id_eq
  case get?_eq_none_iff =>
    intro id
    rw [c.get?_eq_none_iff, ← not_exists, h.made_iff hc]
    refine and_congr_right fun _ => ?_
    omega

end Logged

/-- There is a new catalogue if no name in the table keeps that of a type of the language out. -/
theorem new_valid {names : Interner hash}
    (hnames : ∀ t ∈ DataType.predefined, (Catalogue.enterNames names).Knows t.name) :
    (new names).Valid := by
  constructor
  · rw [new_types]
    exact .start
  · intro t ht
    rw [new_types, Catalogue.toList_new] at ht
    rw [new_names]
    exact hnames t ht

/-- Whatever names were in the table before and whatever is called, the types that were made have the
numbers from `firstDynamic` on without gaps. A call that made an array finds it again, a call that makes
a type gives it the next number, and a call that fails changes nothing. What has a number keeps it. -/
theorem run_appendOnly (names : Interner hash)
    (hnames : ∀ t ∈ DataType.predefined, (Catalogue.enterNames names).Knows t.name)
    (calls : List TypeCall) :
    let events := ((new names).run calls).1
    let s := ((new names).run calls).2
    Records events s.types ∧
      (∀ call, s.Outcome call (s.answer call).1 (s.answer call).2) ∧
      (∀ element length id, (.arrayOf element length, .made id) ∈ events →
        s.answer (.arrayOf element length) = (.made id, s)) ∧
      (∀ call id, (s.answer call).1 = .made id → (call, .made id) ∉ events →
        id.raw = TypeId.firstDynamic + s.types.added.length ∧
        ∃ t, t.id = id ∧ (s.answer call).2.types.added = s.types.added ++ [t]) ∧
      (∀ call e, (s.answer call).1 = .failed e → (s.answer call).2 = s) ∧
      ∀ more id t, s.types.get? id = some t → (s.run more).2.types.get? id = some t := by
  intro events s
  have hstart : Logged [] (new names).types := by
    rw [new_types]
    exact logged_new
  have hvalid : s.Valid := (run_grows (new_valid hnames) calls).1
  have hlogged : Logged events s.types := logged_run (new_valid hnames) hstart calls
  have houtcome (call : TypeCall) := hvalid.outcome call
  refine ⟨hlogged.records hvalid.grown, houtcome, ?again, ?next, ?failed, ?stays⟩
  case again =>
    intro element length id hmade
    obtain ⟨t, ht, rfl, horigin⟩ := (hlogged _ _).mp hmade
    rw [DataType.origin?_eq_arrayOf_iff] at horigin
    have hfind : s.types.arrays.find? (·.1 == (element, length)) = some ((element, length), t.id) :=
      hvalid.grown.find?_arrays_eq_some_iff.mpr ⟨rfl, t, ht, rfl, horigin⟩
    simp only [answer, arrayOf, hfind]
    rfl
  case next =>
    intro call id hanswer hnew
    have hmade : s.Outcome call (.made id) (s.answer call).2 := hanswer ▸ houtcome call
    rcases hmade.of_made with ⟨rfl, hadded⟩ | ⟨-, hbefore⟩
    · exact ⟨rfl, hadded⟩
    · exact absurd ((hlogged call id).mpr hbefore) hnew
  case failed =>
    intro call e hanswer
    have hfailed : s.Outcome call (.failed e) (s.answer call).2 := hanswer ▸ houtcome call
    exact hfailed.eq_of_failed
  case stays => exact fun more id t => Catalogue.get?_mono (run_grows hvalid more).2

/-- A hash that is good for nothing but the types of the language. -/
theorem run_appendOnly_poor_hash :
    let hash : NameHash := fun s => .ofNat ((DataType.predefined.map (·.name)).idxOf s)
    let names : Interner hash := .empty
    let calls : List TypeCall :=
      [.arrayOf .void 2, .arrayOf .u16 3, .arrayOf .u16 3, .defineCustom "handle" .float none,
        .get ⟨64⟩, .get ⟨65⟩]
    let array : DataType := ⟨⟨64⟩, "u16[3]", .array .u16 3, 6, .integer false .w16⟩
    ((new names).run calls).1 = calls.zip [.failed (.invalidElement .void), .made ⟨64⟩, .made ⟨64⟩,
      .failed (.refusedName ⟨15, "u16[3]", "handle"⟩), .type array, .failed (.unknownType ⟨65⟩)] ∧
    Records ((new names).run calls).1 ((new names).run calls).2.types := by
  intro hash names calls array
  have hnames : ∀ t ∈ DataType.predefined, (Catalogue.enterNames names).Knows t.name := by
    have hall : ∀ t ∈ DataType.predefined,
        ((Catalogue.enterNames names).get? (hash t.name)).map (·.text) = some t.name := by
      decide +kernel
    exact fun t ht => Option.map_eq_some_iff.mp (hall t ht)
  exact ⟨by decide +kernel, (run_appendOnly names hnames calls).1⟩

end TypeTables
end ScriptFront
