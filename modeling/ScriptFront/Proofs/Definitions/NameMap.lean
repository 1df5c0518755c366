import ScriptFront.Definitions
import Mathlib.Data.Finmap
import Mathlib.Data.Multiset.MapFold

/-! Names with their values as a finite map, with the calls that a table of definitions answers. The
map tells what each of them should be answered. -/
namespace ScriptFront

inductive DefinitionCall
  | set (name : String) (value : Int64)
  | remove (name : String)
  | extend (pairs : List (String × Int64))
  | get (name : String)
  | value (name : String)
  | contains (name : String)
  | size
  | isEmpty
  | all
  deriving DecidableEq, Repr

inductive DefinitionAnswer
  | previous (value : Option Int64)
  | definition (d : Option Definition)
  | value (v : Int64)
  | truth (b : Bool)
  | count (n : Nat)
  | done
  /-- The order of the definitions means nothing. -/
  | all (ds : Multiset Definition)

namespace DefinitionCall

variable {σ : Type}

/-- The answers to calls one after the other, and the state after them. -/
def run (answer : σ → DefinitionCall → DefinitionAnswer × σ) (s : σ) :
    List DefinitionCall → List DefinitionAnswer × σ
  | [] => ([], s)
  | call :: calls =>
    let (a, s') := answer s call
    let (as, s'') := run answer s' calls
    (a :: as, s'')

end DefinitionCall

/-- Names with their values, and nothing about hashes. -/
abbrev NameMap := Finmap fun _ : String => Int64

namespace NameMap

def get? (m : NameMap) (name : String) : Option Definition :=
  (m.lookup name).map fun value => ⟨name, value⟩

def definitions (m : NameMap) : Multiset Definition := m.entries.map fun e => ⟨e.1, e.2⟩

def answer (m : NameMap) : DefinitionCall → DefinitionAnswer × NameMap
  | .set name value => (.previous (m.lookup name), m.insert name value)
  | .remove name => (.definition (m.get? name), m.erase name)
  | .extend pairs => (.done, pairs.foldl (fun m (name, value) => m.insert name value) m)
  | .get name => (.definition (m.get? name), m)
  | .value name => (.value ((m.lookup name).getD 0), m)
  | .contains name => (.truth (decide (name ∈ m)), m)
  | .size => (.count m.keys.card, m)
  | .isEmpty => (.truth (decide (m = ∅)), m)
  | .all => (.all m.definitions, m)

theorem mem_definitions {m : NameMap} {e : Definition} :
    e ∈ m.definitions ↔ m.lookup e.name = some e.value := by
  rw [definitions, Multiset.mem_map, Finmap.lookup_eq_some_iff]
  constructor
  · rintro ⟨entry, hentry, rfl⟩
    exact hentry
  · intro h
    exact ⟨⟨e.name, e.value⟩, h, rfl⟩

theorem nodup_definitions (m : NameMap) : m.definitions.Nodup := by
  refine m.nodup_entries.map ?_
  rintro ⟨name, value⟩ ⟨name', value'⟩ h
  cases h
  rfl

theorem get?_eq_some_iff {m : NameMap} {name : String} {e : Definition} :
    m.get? name = some e ↔ e ∈ m.definitions ∧ e.name = name := by
  rw [get?, Option.map_eq_some_iff, mem_definitions]
  constructor
  · rintro ⟨value, hvalue, rfl⟩
    exact ⟨hvalue, rfl⟩
  · rintro ⟨hvalue, rfl⟩
    exact ⟨e.value, hvalue, rfl⟩

theorem mem_definitions_insert {m : NameMap} {name : String} {value : Int64} {e : Definition} :
    e ∈ definitions (m.insert name value) ↔
      e = ⟨name, value⟩ ∨ e ∈ m.definitions ∧ e.name ≠ name := by
  obtain ⟨other, v⟩ := e
  rw [mem_definitions, mem_definitions]
  by_cases hname : other = name
  · subst hname
    rw [Finmap.lookup_insert]
    simp [eq_comm]
  · rw [Finmap.lookup_insert_of_ne _ hname]
    simp [hname]

theorem mem_definitions_erase {m : NameMap} {name : String} {e : Definition} :
    e ∈ definitions (m.erase name) ↔ e ∈ m.definitions ∧ e.name ≠ name := by
  obtain ⟨other, v⟩ := e
  rw [mem_definitions, mem_definitions]
  by_cases hname : other = name
  · subst hname
    rw [Finmap.lookup_erase]
    simp
  · rw [Finmap.lookup_erase_ne hname]
    simp [hname]

theorem keys_insert (m : NameMap) (name : String) (value : Int64) :
    (m.insert name value).keys = insert name m.keys := by
  ext other
  rw [Finmap.mem_keys, Finmap.mem_insert, Finset.mem_insert, Finmap.mem_keys]

theorem card_definitions (m : NameMap) : m.definitions.card = m.keys.card := by
  rw [definitions, Multiset.card_map]
  exact (Multiset.card_map _ _).symm

theorem eq_empty_iff (m : NameMap) : m = ∅ ↔ m.keys.card = 0 := by
  constructor
  · rintro rfl
    rfl
  · intro h
    have hkeys : m.keys = ∅ := Finset.card_eq_zero.mp h
    refine Finmap.ext_lookup fun name => ?_
    have hname : name ∉ m := by
      rw [← Finmap.mem_keys, hkeys]
      exact Finset.notMem_empty name
    rw [Finmap.lookup_eq_none.mpr hname, Finmap.lookup_empty]

end NameMap

end ScriptFront
