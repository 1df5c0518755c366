import ScriptFront.Text.Quoted
import Mathlib.Tactic.SplitIfs

/-! String literals read back, and both readers of them agree: the one that decodes a literal and
the one that skips it. Whether they are given the characters of a text or its bytes, a literal ends
at the same place, and the bytes of a decoded literal are those of a text again. -/
namespace ScriptFront.Text

/-- The bytes of a character in UTF-8, one character for each. -/
def octetsOf (c : Char) : List Char := (String.utf8EncodeChar c).map fun b => Char.ofNat b.toNat

/-- The bytes of a text in UTF-8, one character for each. -/
def octets (s : List Char) : List Char := s.flatMap octetsOf

@[simp] theorem octets_cons (c : Char) (s : List Char) :
    octets (c :: s) = octetsOf c ++ octets s := rfl

@[simp] theorem octets_append (s t : List Char) : octets (s ++ t) = octets s ++ octets t :=
  List.flatMap_append

theorem length_octets (s : List Char) : (octets s).length = byteSize s := by
  induction s with
  | nil => rfl
  | cons c s ih =>
    rw [octets_cons, List.length_append, ih, octetsOf, List.length_map,
      String.length_utf8EncodeChar, byteSize_cons]

theorem octetsOf_ne_nil (c : Char) : octetsOf c ≠ [] := by
  rw [octetsOf, Ne, List.map_eq_nil_iff]
  exact String.utf8EncodeChar_ne_nil

theorem octetsOf_of_ascii {c : Char} (h : c.toNat < 128) : octetsOf c = [c] := by
  have hle : c.val.toNat ≤ 127 := Nat.le_of_lt_succ h
  have hbyte : (UInt8.ofNat c.val.toNat).toNat = c.toNat :=
    UInt8.toNat_ofNat_of_lt' (Nat.lt_of_le_of_lt hle (by decide))
  simp only [octetsOf, String.utf8EncodeChar, if_pos hle]
  rw [List.map_singleton, hbyte, Char.ofNat_toNat]

theorem toNat_ofNat_byte (b : UInt8) : (Char.ofNat b.toNat).toNat = b.toNat := by
  have hvalid : b.toNat.isValidChar := .inl (Nat.lt_trans b.toNat_lt (by decide))
  rw [Char.ofNat, dif_pos hvalid]
  rfl

/-- Every byte of a character beyond ASCII is beyond ASCII. -/
theorem le_of_mem_octetsOf {c : Char} (h : 128 ≤ c.toNat) : ∀ o ∈ octetsOf c, 128 ≤ o.toNat := by
  have hbyte : ∀ n, 128 ≤ n → n < 256 → 128 ≤ (UInt8.ofNat n).toNat := fun n hle hlt => by
    rwa [UInt8.toNat_ofNat_of_lt' hlt]
  have hascii : ¬c.val.toNat ≤ 127 := Nat.not_le.mpr h
  intro o ho
  obtain ⟨b, hb, rfl⟩ := List.mem_map.mp ho
  rw [toNat_ofNat_byte]
  simp only [String.utf8EncodeChar, if_neg hascii] at hb
  split_ifs at hb <;> simp only [List.mem_cons, List.not_mem_nil, or_false] at hb
  · obtain rfl | rfl := hb <;> exact hbyte _ (by omega) (by omega)
  · obtain rfl | rfl | rfl := hb <;> exact hbyte _ (by omega) (by omega)
  · obtain rfl | rfl | rfl | rfl := hb <;> exact hbyte _ (by omega) (by omega)

namespace Quoted

/-- The ways to write a text between quotes: a quote and a backslash stand behind a backslash, and a
control character may be written by its letter. -/
inductive Writes : List Char → List Char → Prop
  | nil : Writes [] []
  | plain {c : Char} {s e : List Char} (hquote : c ≠ '"') (hescape : c ≠ '\\') (h : Writes s e) :
      Writes (c :: s) (c :: e)
  | escaped {c : Char} {s e : List Char} (hc : c = '"' ∨ c = '\\') (h : Writes s e) :
      Writes (c :: s) ('\\' :: c :: e)
  | control {letter c : Char} {s e : List Char}
      (hc : (letter, c) ∈ [('n', '\n'), ('r', '\r'), ('t', '\t')]) (h : Writes s e) :
      Writes (c :: s) ('\\' :: letter :: e)

theorem writes_encode (s : List Char) : Writes s (encode s) := by
  induction s with
  | nil => exact .nil
  | cons c s ih =>
    rw [encode]
    split
    · next hc => exact .escaped hc ih
    · next hc =>
      rw [not_or] at hc
      exact .plain hc.1 hc.2 ih

theorem decode?_plain {c : Char} (hquote : c ≠ '"') (hescape : c ≠ '\\') (s : List Char) :
    decode? (c :: s) = (decode? s).map fun (text, rest) => (c :: text, rest) :=
  decode?.eq_4 c s hquote fun _ _ hc _ => hescape hc

theorem decode?_escape (c : Char) (s : List Char) :
    decode? ('\\' :: c :: s) = (decode? s).map fun (text, rest) => (unescape c :: text, rest) :=
  rfl

theorem decode?_of_writes {s e : List Char} (h : Writes s e) (rest : List Char) :
    decode? (e ++ '"' :: rest) = some (s, rest) := by
  induction h with
  | nil => rfl
  | plain hquote hescape _ ih => rw [List.cons_append, decode?_plain hquote hescape, ih]; rfl
  | escaped hc _ ih =>
    rw [List.cons_append, List.cons_append, decode?_escape, ih]
    rcases hc with rfl | rfl <;> rfl
  | control hc _ ih =>
    rw [List.cons_append, List.cons_append, decode?_escape, ih]
    simp only [List.mem_cons, Prod.mk.injEq, List.not_mem_nil, or_false] at hc
    obtain ⟨rfl, rfl⟩ | ⟨rfl, rfl⟩ | ⟨rfl, rfl⟩ := hc <;> rfl

/-- Both readers leave the same rest, or both find no closing quote. -/
theorem map_rest_split? (s : List Char) :
    (split? s).map (·.2) = (decode? s).map (·.2) := by
  fun_induction decode? s with
  | case1 => rfl
  | case2 s => rfl
  | case3 c s ih =>
    rw [split?, Option.map_map, Option.map_map]
    exact ih
  | case4 c s hquote hescape ih =>
    rw [split?.eq_4 c s hquote hescape, Option.map_map, Option.map_map]
    exact ih

/-- Characters that are neither quote nor backslash stand for themselves. -/
theorem decode?_append_plain {a : List Char} (ha : ∀ c ∈ a, c ≠ '"' ∧ c ≠ '\\') (s : List Char) :
    decode? (a ++ s) = (decode? s).map fun (text, rest) => (a ++ text, rest) := by
  induction a with
  | nil => simp
  | cons c a ih =>
    obtain ⟨⟨hquote, hescape⟩, ha⟩ := List.forall_mem_cons.mp ha
    rw [List.cons_append, decode?_plain hquote hescape, ih ha, Option.map_map]
    rfl

theorem plain_of_le {c : Char} (h : 128 ≤ c.toNat) : c ≠ '"' ∧ c ≠ '\\' ∧ unescape c = c := by
  refine ⟨?_, ?_, ?_⟩
  · rintro rfl
    cases Nat.not_le.mpr (by decide) h
  · rintro rfl
    cases Nat.not_le.mpr (by decide) h
  · unfold unescape
    split
    all_goals first | rfl | cases Nat.not_le.mpr (by decide) h

theorem octetsOf_unescape {c : Char} (h : c.toNat < 128) :
    octetsOf (unescape c) = [unescape c] := by
  refine octetsOf_of_ascii ?_
  unfold unescape
  split
  · decide
  · decide
  · decide
  · exact h

/-- The bytes of a character behind a backslash. A reader of bytes takes the first of them as the
escaped one, and the others as they are. -/
theorem decode?_escape_octetsOf (c : Char) (s : List Char) :
    decode? ('\\' :: (octetsOf c ++ s)) =
      (decode? s).map fun (text, rest) => (octetsOf (unescape c) ++ text, rest) := by
  by_cases hc : c.toNat < 128
  · rw [octetsOf_of_ascii hc, octetsOf_unescape hc]
    rfl
  · have hle : 128 ≤ c.toNat := Nat.le_of_not_lt hc
    have hoctets := le_of_mem_octetsOf hle
    obtain ⟨o, os, heq⟩ := List.exists_cons_of_ne_nil (octetsOf_ne_nil c)
    rw [heq] at hoctets
    obtain ⟨ho, hos⟩ := List.forall_mem_cons.mp hoctets
    have hplain : ∀ d ∈ os, d ≠ '"' ∧ d ≠ '\\' := fun d hd =>
      ⟨(plain_of_le (hos d hd)).1, (plain_of_le (hos d hd)).2.1⟩
    rw [(plain_of_le hle).2.2, heq, List.cons_append, decode?_escape, (plain_of_le ho).2.2,
      decode?_append_plain hplain, Option.map_map]
    rfl

theorem decode?_octetsOf {c : Char} (hquote : c ≠ '"') (hescape : c ≠ '\\') (s : List Char) :
    decode? (octetsOf c ++ s) = (decode? s).map fun (text, rest) => (octetsOf c ++ text, rest) := by
  by_cases hc : c.toNat < 128
  · rw [octetsOf_of_ascii hc]
    exact decode?_plain hquote hescape s
  · refine decode?_append_plain (fun o ho => ?_) s
    have hle := le_of_mem_octetsOf (Nat.le_of_not_lt hc) o ho
    exact ⟨(plain_of_le hle).1, (plain_of_le hle).2.1⟩

/-- The bytes of a text are decoded to the bytes of the decoded text. -/
theorem decode?_octets (s : List Char) :
    decode? (octets s) = (decode? s).map fun (text, rest) => (octets text, octets rest) := by
  fun_induction decode? s with
  | case1 => rfl
  | case2 s => rfl
  | case3 c s ih =>
    rw [octets_cons, octets_cons, octetsOf_of_ascii (by decide), List.singleton_append,
      decode?_escape_octetsOf, ih, Option.map_map, Option.map_map]
    rfl
  | case4 c s hquote hescape ih =>
    -- a backslash that nothing follows stands for itself
    by_cases hlone : c = '\\'
    · obtain rfl : s = [] := by
        rcases s with _ | ⟨d, s⟩
        · rfl
        · exact absurd rfl (hescape d s hlone)
      rw [hlone]
      rfl
    · rw [octets_cons, decode?_octetsOf hquote hlone, ih, Option.map_map, Option.map_map]
      rfl

theorem exists_split?_iff {s rest : List Char} :
    (∃ raw, split? s = some (raw, rest)) ↔ ∃ text, decode? s = some (text, rest) := by
  have hrest : ∀ r : Option (List Char × List Char),
      (∃ a, r = some (a, rest)) ↔ r.map (·.2) = some rest := by
    intro r
    simp [Option.map_eq_some_iff]
  rw [hrest, hrest, map_rest_split?]

/-- The bytes of a text are skipped as its characters are. -/
theorem split?_octets (s : List Char) :
    split? (octets s) = (split? s).map fun (raw, rest) => (octets raw, octets rest) := by
  have hrest : (split? (octets s)).map (·.2) = (split? s).map fun r => octets r.2 := by
    have hchars := congrArg (Option.map octets) (map_rest_split? s)
    rw [Option.map_map, Option.map_map] at hchars
    rw [map_rest_split?, decode?_octets, Option.map_map]
    exact hchars.symm
  rcases hs : split? s with _ | ⟨raw, rest⟩
  · rw [hs] at hrest
    exact Option.map_eq_none_iff.mp hrest
  · rw [hs] at hrest
    obtain ⟨⟨raw', rest'⟩, hsplit, heq⟩ := Option.map_eq_some_iff.mp hrest
    obtain rfl : rest' = octets rest := heq
    have hparts := append_of_split? hsplit
    rw [← append_of_split? hs, octets_append] at hparts
    rw [hsplit, List.append_cancel_right hparts]
    rfl

theorem length_split?_octets (s : List Char) :
    (split? (octets s)).map (fun (raw, _) => raw.length) =
      (decode? s).map fun (_, rest) => byteSize s - byteSize rest := by
  rw [split?_octets, Option.map_map]
  rcases hs : split? s with _ | ⟨raw, rest⟩
  · have hrest := map_rest_split? s
    rw [hs] at hrest
    rw [Option.map_eq_none_iff.mp hrest.symm]
    rfl
  · obtain ⟨text, htext⟩ := exists_split?_iff.mp ⟨raw, hs⟩
    have hsize : byteSize s - byteSize rest = byteSize raw := by
      rw [← append_of_split? hs, byteSize_append, Nat.add_sub_cancel]
    rw [htext]
    exact congrArg some ((length_octets raw).trans hsize.symm)

/-- Every text has a written form. A literal in any of them reads back, and it ends right behind its
closing quote. Skipping a literal, by characters or by bytes, takes what decoding it takes. Bytes of
a text are decoded to bytes of a text. -/
theorem literal_readsBack :
    (∀ s, Writes s (encode s)) ∧
      (∀ {s e : List Char}, Writes s e → ∀ rest, decode? (e ++ '"' :: rest) = some (s, rest) ∧
        byteSize (e ++ '"' :: rest) - byteSize rest = byteSize e + 1) ∧
      (∀ s rest, (∃ raw, split? s = some (raw, rest)) ↔ ∃ text, decode? s = some (text, rest)) ∧
      (∀ s, (split? (octets s)).map (fun (raw, _) => raw.length) =
        (decode? s).map fun (_, rest) => byteSize s - byteSize rest) ∧
      ∀ s, decode? (octets s) =
        (decode? s).map fun (text, rest) => (octets text, octets rest) := by
  refine ⟨writes_encode, fun h rest => ⟨decode?_of_writes h rest, ?_⟩,
    fun _ _ => exists_split?_iff, length_split?_octets, decode?_octets⟩
  have hquote : '"'.utf8Size = 1 := rfl
  rw [byteSize_append, byteSize_cons]
  omega

/-- A line feed by its letter, a quote behind a backslash, and a letter of two bytes. -/
theorem literal_readsBack_escapes :
    Writes "é\"\n".toList "é\\\"\\n".toList ∧
      decode? "é\\\"\\n\" x".toList = some ("é\"\n".toList, " x".toList) := by
  have h : Writes "é\"\n".toList "é\\\"\\n".toList :=
    .plain (by decide) (by decide) (.escaped (.inl rfl) (.control (by decide) .nil))
  exact ⟨h, (literal_readsBack.2.1 h " x".toList).1⟩

end Quoted
end ScriptFront.Text
