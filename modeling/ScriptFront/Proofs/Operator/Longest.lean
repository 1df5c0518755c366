import ScriptFront.Operator.Longest
import ScriptFront.Proofs.Operator.Trie
import Mathlib.Data.List.Nodup
import Mathlib.Data.List.TakeWhile

/-! The operator at the start of a text is the longest one that the text begins with. -/
namespace ScriptFront.Operator

/-! Bytes. -/

/-- The spellings as the trie gets them. -/
def entries : List (List UInt8) := spellings.map fun w => bytes w.toList

/-- So the numbers of nodes and spellings fit in 16 and 8 bits. -/
theorem size_trie_le : trie.nodes.size ≤ UInt16.size ∧ entries.length ≤ UInt8.size := by
  decide +kernel

theorem isTable_entries : OperatorTrie.IsTable entries := by
  refine ⟨?_, ?_, ?_⟩ <;> decide +kernel

theorem find?_eq_some_iff {s : List UInt8} {found : Found} :
    find? s = some found ↔ OperatorTrie.IsLongest entries s found :=
  OperatorTrie.lookup_build_eq_some_iff isTable_entries

theorem find?_eq_none_iff {s : List UInt8} : find? s = none ↔ ∀ w ∈ entries, ¬w <+: s :=
  OperatorTrie.lookup_build_eq_none_iff isTable_entries

theorem len_le_of_find? {s : List UInt8} {found : Found} (h : find? s = some found) :
    found.len ≤ s.length := by
  obtain ⟨w, -, hprefix, hlength⟩ := (find?_eq_some_iff.mp h).word
  exact hlength ▸ hprefix.length_le

example : find? (bytes ">>=2".toList) = some ⟨7, 3⟩ := by decide +kernel

theorem toNat_toUInt8 {c : Char} (hc : c.toNat < 128) : c.toUInt8.toNat = c.toNat := by
  show c.toNat % 256 = c.toNat
  omega

/-- ASCII characters are told apart by their bytes. -/
theorem bytes_inj {s w : List Char} (hs : ∀ c ∈ s, c.toNat < 128) (hw : ∀ c ∈ w, c.toNat < 128)
    (h : bytes w = bytes s) : w = s := by
  induction w generalizing s with
  | nil => exact (List.map_eq_nil_iff.mp h.symm).symm
  | cons d w ih =>
    rcases s with _ | ⟨c, s⟩
    · cases h
    obtain ⟨hc, hs⟩ := List.forall_mem_cons.mp hs
    obtain ⟨hd, hw⟩ := List.forall_mem_cons.mp hw
    obtain ⟨hcd, hsw⟩ := List.cons.inj h
    have hnat := congrArg UInt8.toNat hcd
    rw [toNat_toUInt8 hc, toNat_toUInt8 hd] at hnat
    rw [Char.toNat_inj.mp hnat, ih hs hw hsw]

theorem bytes_prefix_iff {s w : List Char} (hs : ∀ c ∈ s, c.toNat < 128)
    (hw : ∀ c ∈ w, c.toNat < 128) : bytes w <+: bytes s ↔ w <+: s := by
  refine ⟨fun h => ?_, fun h => h.map Char.toUInt8⟩
  have htake : bytes w = bytes (s.take w.length) := by
    rw [List.prefix_iff_eq_take.mp h, bytes, bytes, bytes, List.length_map, List.map_take]
  rw [bytes_inj (fun c hc => hs c (List.mem_of_mem_take hc)) hw htake]
  exact List.take_prefix _ _

/-! Operators. -/

theorem map_spelling_all : all.map spelling = spellings := rfl

theorem spelling_ne_nil (op : Operator) : op.spelling.toList ≠ [] := by
  cases op <;> decide

theorem isOperator_of_mem_spelling (op : Operator) :
    ∀ c ∈ op.spelling.toList, CharClass.isOperator c = true := by
  have hall : op.spelling.toList.all CharClass.isOperator := by cases op <;> decide
  exact List.all_eq_true.mp hall

theorem toNat_lt_of_mem_spelling (op : Operator) : ∀ c ∈ op.spelling.toList, c.toNat < 128 :=
  fun c hc => CharClass.toNat_lt_of_isOperator c (op.isOperator_of_mem_spelling c hc)

/-- `s` begins with the operator, and no longer operator is a beginning of it. -/
structure IsLongest (op : Operator) (s rest : List Char) : Prop where
  eq_append : s = op.spelling.toList ++ rest
  le : ∀ other : Operator, other.spelling.toList <+: s →
    other.spelling.toList.length ≤ op.spelling.toList.length

theorem nodup_spellings : (all.map fun op => op.spelling.toList).Nodup := by decide

theorem spelling_inj {op other : Operator} (h : op.spelling.toList = other.spelling.toList) :
    op = other :=
  List.inj_on_of_nodup_map nodup_spellings (mem_all op) (mem_all other) h

theorem IsLongest.unique {op other : Operator} {s rest rest' : List Char}
    (h : op.IsLongest s rest) (h' : other.IsLongest s rest') : op = other ∧ rest = rest' := by
  have hprefix : op.spelling.toList <+: s := ⟨rest, h.eq_append.symm⟩
  have hprefix' : other.spelling.toList <+: s := ⟨rest', h'.eq_append.symm⟩
  have hlength := Nat.le_antisymm (h'.le op hprefix) (h.le other hprefix')
  have heq := List.append_inj (h.eq_append.symm.trans h'.eq_append) hlength
  exact ⟨spelling_inj heq.1, heq.2⟩

/-- The operators stand in the order of their spellings. -/
theorem entries_getElem?_eq_some_iff {k : Nat} {w : List UInt8} :
    entries[k]? = some w ↔ ∃ op, all[k]? = some op ∧ bytes op.spelling.toList = w := by
  rw [entries, ← map_spelling_all, List.map_map, List.getElem?_map, Option.map_eq_some_iff]
  rfl

theorem bytes_spelling_mem_entries (op : Operator) : bytes op.spelling.toList ∈ entries := by
  obtain ⟨k, hk⟩ := List.mem_iff_getElem?.mp (mem_all op)
  exact List.mem_of_getElem? (entries_getElem?_eq_some_iff.mpr ⟨op, hk, rfl⟩)

/-- An operator at the start of a text is one at the start of the run that the text begins with. -/
theorem bytes_prefix_run_iff (op : Operator) (s : List Char) :
    bytes op.spelling.toList <+: bytes (s.takeWhile CharClass.isOperator) ↔
      op.spelling.toList <+: s := by
  rw [bytes_prefix_iff (fun c hc => CharClass.toNat_lt_of_isOperator c (List.mem_takeWhile_imp hc))
    op.toNat_lt_of_mem_spelling]
  refine ⟨fun h => h.trans (List.takeWhile_prefix _), ?_⟩
  rintro ⟨rest, rfl⟩
  rw [List.takeWhile_append_of_pos op.isOperator_of_mem_spelling]
  exact List.prefix_append _ _

theorem longest?_cases (s : List Char) :
    (longest? s = none ∧ ∀ op : Operator, ¬op.spelling.toList <+: s) ∨
      ∃ op rest, longest? s = some (op, rest) ∧ op.IsLongest s rest := by
  rcases hfound : find? (bytes (s.takeWhile CharClass.isOperator)) with _ | found
  · refine .inl ⟨by rw [longest?, hfound]; rfl, fun op hop => ?_⟩
    exact find?_eq_none_iff.mp hfound _ (bytes_spelling_mem_entries op)
      ((bytes_prefix_run_iff op s).mpr hop)
  · have hlongest := find?_eq_some_iff.mp hfound
    obtain ⟨w, hw, hprefix, hlength⟩ := hlongest.word
    obtain ⟨op, hop, rfl⟩ := entries_getElem?_eq_some_iff.mp hw
    obtain ⟨rest, rfl⟩ := (bytes_prefix_run_iff op s).mp hprefix
    rw [bytes, List.length_map] at hlength
    refine .inr ⟨op, rest, ?_, rfl, fun other hother => ?_⟩
    · rw [longest?, hfound, Option.bind_eq_bind, Option.bind_some, hop, ← hlength]
      simp
    · have hle := hlongest.le _ (bytes_spelling_mem_entries other)
        ((bytes_prefix_run_iff other _).mpr hother)
      rwa [bytes, List.length_map, ← hlength] at hle

theorem longest?_eq_some_iff {op : Operator} {s rest : List Char} :
    longest? s = some (op, rest) ↔ op.IsLongest s rest := by
  rcases longest?_cases s with ⟨hnone, hnot⟩ | ⟨other, rest', hsome, hlongest⟩
  · rw [hnone]
    exact iff_of_false nofun fun h => hnot op ⟨rest, h.eq_append.symm⟩
  · rw [hsome]
    refine ⟨fun h => ?_, fun h => ?_⟩
    · cases h
      exact hlongest
    · obtain ⟨rfl, rfl⟩ := hlongest.unique h
      rfl

theorem longest?_eq_none_iff {s : List Char} :
    longest? s = none ↔ ∀ op : Operator, ¬op.spelling.toList <+: s := by
  rcases longest?_cases s with ⟨hnone, hnot⟩ | ⟨op, rest, hsome, hlongest⟩
  · exact iff_of_true hnone hnot
  · rw [hsome]
    exact iff_of_false nofun fun h => h op ⟨rest, hlongest.eq_append.symm⟩

theorem isLongest_of_longest? {op : Operator} {s rest : List Char}
    (h : longest? s = some (op, rest)) : op.IsLongest s rest := longest?_eq_some_iff.mp h

theorem eq_append_of_longest? {op : Operator} {s rest : List Char}
    (h : longest? s = some (op, rest)) : s = op.spelling.toList ++ rest :=
  (isLongest_of_longest? h).eq_append

end ScriptFront.Operator
