import ScriptFront.Number.Literal
import ScriptFront.Proofs.Text.Quoted

/-! Places in a text by their bytes. A text can be taken out of another one between two bytes if no
character is cut there. Where only ASCII characters count, the bytes of a text are scanned as its
characters are. -/
namespace ScriptFront.Text

/-! Taking a text out of another one. -/

/-- So many bytes are the start of the text, up to the end of a character. -/
def IsBoundary (s : List Char) (i : Nat) : Prop := ∃ before, before <+: s ∧ byteSize before = i

/-- The text behind so many bytes, unless a character is cut there. -/
def dropBytes? : Nat → List Char → Option (List Char)
  | 0, s => some s
  | _ + 1, [] => none
  | i + 1, c :: s => if c.utf8Size ≤ i + 1 then dropBytes? (i + 1 - c.utf8Size) s else none

/-- The text from one byte to another, unless a character is cut there. -/
def slice? (s : List Char) (i j : Nat) : Option (List Char) :=
  if i ≤ j then do
    let t ← dropBytes? i s
    let after ← dropBytes? (j - i) t
    some (t.take (t.length - after.length))
  else none

theorem dropBytes?_append (before s : List Char) :
    dropBytes? (byteSize before) (before ++ s) = some s := by
  induction before with
  | nil => rw [byteSize_nil, dropBytes?, List.nil_append]
  | cons c before ih =>
    obtain ⟨i, hi⟩ := Nat.exists_eq_succ_of_ne_zero (Nat.ne_of_gt
      (Nat.lt_of_lt_of_le c.utf8Size_pos (Nat.le_add_right c.utf8Size (byteSize before))))
    rw [byteSize_cons, List.cons_append, hi, dropBytes?, ← Nat.succ_eq_add_one, ← hi,
      if_pos (Nat.le_add_right ..), Nat.add_sub_cancel_left, ih]

theorem eq_append_of_dropBytes? {i : Nat} {s t : List Char} (h : dropBytes? i s = some t) :
    ∃ before, s = before ++ t ∧ byteSize before = i := by
  fun_induction dropBytes? i s with
  | case1 s =>
    cases h
    exact ⟨[], rfl, rfl⟩
  | case2 => cases h
  | case3 i c s hle ih =>
    obtain ⟨before, rfl, hsize⟩ := ih h
    refine ⟨c :: before, rfl, ?_⟩
    rw [byteSize_cons]
    omega
  | case4 => cases h

theorem slice?_append (before t after : List Char) :
    slice? (before ++ (t ++ after)) (byteSize before) (byteSize before + byteSize t) = some t := by
  rw [slice?, if_pos (Nat.le_add_right ..), dropBytes?_append, Nat.add_sub_cancel_left]
  show (dropBytes? (byteSize t) (t ++ after)).bind _ = some t
  rw [dropBytes?_append, Option.bind_some, List.length_append, Nat.add_sub_cancel, List.take_left]

theorem isBoundary_append (before s : List Char) : IsBoundary (before ++ s) (byteSize before) :=
  ⟨before, List.prefix_append _ _, rfl⟩

theorem IsBoundary.le {s : List Char} {i : Nat} (h : IsBoundary s i) : i ≤ byteSize s := by
  obtain ⟨before, ⟨after, rfl⟩, rfl⟩ := h
  rw [byteSize_append]
  exact Nat.le_add_right _ _

theorem byteSize_pos {s : List Char} (h : s ≠ []) : 0 < byteSize s := by
  obtain ⟨c, s, rfl⟩ := List.exists_cons_of_ne_nil h
  exact Nat.lt_of_lt_of_le c.utf8Size_pos (Nat.le_add_right _ _)

/-- A text is refused only where a character would be cut. -/
theorem isSome_slice?_iff {s : List Char} {i j : Nat} :
    (slice? s i j).isSome = true ↔ i ≤ j ∧ IsBoundary s i ∧ IsBoundary s j := by
  constructor
  · intro h
    obtain ⟨t, ht⟩ := Option.isSome_iff_exists.mp h
    rw [slice?] at ht
    split_ifs at ht with hle
    obtain ⟨u, hu, hrest⟩ := Option.bind_eq_some_iff.mp ht
    obtain ⟨after, hafter, -⟩ := Option.bind_eq_some_iff.mp hrest
    obtain ⟨before, rfl, hbefore⟩ := eq_append_of_dropBytes? hu
    obtain ⟨middle, rfl, hmiddle⟩ := eq_append_of_dropBytes? hafter
    have hend := isBoundary_append (before ++ middle) after
    rw [byteSize_append, List.append_assoc, hbefore, hmiddle, Nat.add_sub_cancel' hle] at hend
    exact ⟨hle, hbefore ▸ isBoundary_append before _, hend⟩
  · rintro ⟨hle, ⟨before, hbefore, rfl⟩, ⟨upto, hupto, rfl⟩⟩
    have hprefix : before <+: upto := by
      rcases List.prefix_or_prefix_of_prefix hbefore hupto with h | ⟨more, rfl⟩
      · exact h
      · -- nothing is left between the two places
        rw [byteSize_append] at hle
        rcases more with _ | ⟨c, more⟩
        · exact ⟨[], by rw [List.append_nil, List.append_nil]⟩
        · have hpos := byteSize_pos (List.cons_ne_nil c more)
          omega
    obtain ⟨t, rfl⟩ := hprefix
    obtain ⟨after, rfl⟩ := hupto
    rw [List.append_assoc, byteSize_append, slice?_append]
    rfl

/-! The bytes of a text. -/

/-- The text that bytes encode. -/
def ofOctets? (octets : List Char) : Option String :=
  String.fromUTF8? (octets.map fun o => UInt8.ofNat o.toNat).toByteArray

theorem ofOctets?_octets (s : List Char) : ofOctets? (octets s) = some (String.ofList s) := by
  have hbyte : (fun o : Char => UInt8.ofNat o.toNat) ∘ (fun b : UInt8 => Char.ofNat b.toNat) = id := by
    funext b
    show UInt8.ofNat (Char.ofNat b.toNat).toNat = b
    rw [toNat_ofNat_byte, UInt8.ofNat_toNat]
  have hbytes : (octets s).map (fun o => UInt8.ofNat o.toNat) = s.flatMap String.utf8EncodeChar := by
    rw [octets, List.map_flatMap]
    refine congrArg s.flatMap (funext fun c => ?_)
    rw [octetsOf, List.map_map, hbyte, List.map_id]
  have hencode : ((octets s).map fun o => UInt8.ofNat o.toNat).toByteArray =
      (String.ofList s).toByteArray := by
    rw [hbytes, String.toByteArray_ofList]
    rfl
  rw [ofOctets?, hencode, String.fromUTF8?, dif_pos (String.isValidUTF8 _)]
  rfl

theorem octets_of_ascii {s : List Char} (h : ∀ c ∈ s, c.toNat < 128) : octets s = s := by
  induction s with
  | nil => rfl
  | cons c s ih =>
    obtain ⟨hc, hs⟩ := List.forall_mem_cons.mp h
    rw [octets_cons, octetsOf_of_ascii hc, ih hs, List.singleton_append]

theorem byteSize_of_ascii {s : List Char} (h : ∀ c ∈ s, c.toNat < 128) : byteSize s = s.length := by
  rw [← length_octets, octets_of_ascii h]

theorem drop_octets (before s : List Char) :
    (octets (before ++ s)).drop (byteSize before) = octets s := by
  rw [octets_append, ← length_octets, List.drop_left]

theorem exists_octetsOf_of_le {c : Char} (h : 128 ≤ c.toNat) :
    ∃ o os, octetsOf c = o :: os ∧ 128 ≤ o.toNat ∧ ∀ o ∈ os, 128 ≤ o.toNat := by
  obtain ⟨o, os, heq⟩ := List.exists_cons_of_ne_nil (octetsOf_ne_nil c)
  have hall := le_of_mem_octetsOf h
  rw [heq] at hall
  exact ⟨o, os, heq, List.forall_mem_cons.mp hall⟩

/-- The bytes of a text begin with an ASCII character only if the text does. -/
theorem octets_cons_ne {c d : Char} (hd : d.toNat < 128) (hne : c ≠ d) (s t : List Char) :
    octets (c :: s) ≠ d :: t := by
  intro heq
  by_cases hc : c.toNat < 128
  · rw [octets_cons, octetsOf_of_ascii hc] at heq
    exact hne (List.cons.inj heq).1
  · obtain ⟨o, os, ho, hle, -⟩ := exists_octetsOf_of_le (Nat.le_of_not_lt hc)
    rw [octets_cons, ho] at heq
    obtain rfl : o = d := (List.cons.inj heq).1
    omega

section Classes

variable {p : Char → Bool} (hp : ∀ c, p c = true → c.toNat < 128)

include hp

theorem eq_false_of_le {c : Char} (h : 128 ≤ c.toNat) : p c = false :=
  Bool.eq_false_iff.mpr fun hc => Nat.not_lt.mpr h (hp c hc)

theorem takeWhile_octets (s : List Char) : (octets s).takeWhile p = s.takeWhile p := by
  induction s with
  | nil => rfl
  | cons c s ih =>
    by_cases hc : c.toNat < 128
    · rw [octets_cons, octetsOf_of_ascii hc, List.singleton_append, List.takeWhile_cons,
        List.takeWhile_cons, ih]
    · have hle : 128 ≤ c.toNat := Nat.le_of_not_lt hc
      obtain ⟨o, os, heq, ho, -⟩ := exists_octetsOf_of_le hle
      rw [octets_cons, heq, List.cons_append, List.takeWhile_cons, List.takeWhile_cons,
        eq_false_of_le hp ho, eq_false_of_le hp hle]
      rfl

theorem dropWhile_octets (s : List Char) : (octets s).dropWhile p = octets (s.dropWhile p) := by
  induction s with
  | nil => rfl
  | cons c s ih =>
    by_cases hc : c.toNat < 128
    · rw [octets_cons, octetsOf_of_ascii hc, List.singleton_append, List.dropWhile_cons,
        List.dropWhile_cons, ih]
      split_ifs
      · rfl
      · rw [octets_cons, octetsOf_of_ascii hc, List.singleton_append]
    · have hle : 128 ≤ c.toNat := Nat.le_of_not_lt hc
      obtain ⟨o, os, heq, ho, -⟩ := exists_octetsOf_of_le hle
      rw [octets_cons, heq, List.cons_append, List.dropWhile_cons, List.dropWhile_cons,
        eq_false_of_le hp ho, eq_false_of_le hp hle, if_neg Bool.false_ne_true,
        if_neg Bool.false_ne_true, octets_cons, heq, List.cons_append]

theorem toNat_lt_of_mem_takeWhile {s : List Char} : ∀ c ∈ s.takeWhile p, c.toNat < 128 :=
  fun c hc => hp c (List.all_eq_true.mp List.all_takeWhile c hc)

end Classes

end ScriptFront.Text

namespace ScriptFront

namespace CharClass

variable {c : Char}

theorem toNat_lt_of_isDigit (h : isDigit c = true) : c.toNat < 128 := by
  obtain ⟨-, hle⟩ := Bool.and_eq_true_iff.mp h
  exact Nat.lt_of_le_of_lt (of_decide_eq_true hle) (by decide)

theorem toNat_lt_of_isLetter (h : isLetter c = true) : c.toNat < 128 := by
  rcases Bool.or_eq_true_iff.mp h with h | h
  · exact Nat.lt_of_le_of_lt (of_decide_eq_true h).2 (by decide)
  · obtain ⟨-, hle⟩ := Bool.and_eq_true_iff.mp h
    exact Nat.lt_of_le_of_lt (of_decide_eq_true hle) (by decide)

theorem toNat_lt_of_isIdentifier (c : Char) (h : isIdentifier c = true) : c.toNat < 128 := by
  rw [isIdentifier, Bool.or_eq_true, Bool.or_eq_true, beq_iff_eq, beq_iff_eq] at h
  rcases h with (h | rfl) | rfl
  · rcases Bool.or_eq_true_iff.mp h with h | h
    · exact toNat_lt_of_isLetter h
    · exact toNat_lt_of_isDigit h
  · decide
  · decide

theorem toNat_lt_of_isBlank (c : Char) (h : isBlank c = true) : c.toNat < 128 := by
  rw [isBlank, Bool.or_eq_true, Bool.or_eq_true, beq_iff_eq, beq_iff_eq, beq_iff_eq] at h
  rcases h with (rfl | rfl) | rfl <;> decide

end CharClass

namespace Number

open Text

theorem spanIdentifier_octets (s : List Char) :
    spanIdentifier (octets s) = ((spanIdentifier s).1, octets (spanIdentifier s).2) := by
  rw [spanIdentifier, takeWhile_octets CharClass.toNat_lt_of_isIdentifier,
    dropWhile_octets CharClass.toNat_lt_of_isIdentifier, spanIdentifier]

/-- A literal is scanned in the bytes of a text as in its characters. -/
theorem scan_octets (s : List Char) :
    scan (octets s) = ⟨(scan s).raw, (scan s).value, octets (scan s).rest⟩ := by
  unfold scan
  rw [spanIdentifier_octets]
  rcases spanIdentifier s with ⟨raw, rest⟩
  dsimp only
  split
  · rfl
  · rfl
  · rfl
  · rcases rest with _ | ⟨d, rest⟩
    · rfl
    · by_cases hd : d = '-'
      · subst hd
        rw [octets_cons, octetsOf_of_ascii (by decide), List.singleton_append]
        simp only [spanIdentifier_octets]
        split <;> rfl
      · split
        · next heq => exact absurd heq (octets_cons_ne (by decide) hd rest _)
        · split
          · next heq => exact absurd (List.cons.inj heq).1 hd
          · rfl

theorem toNat_lt_of_mem_raw (s : List Char) : ∀ c ∈ (scan s).raw, c.toNat < 128 := by
  have hword (t : List Char) : ∀ c ∈ t.takeWhile CharClass.isIdentifier, c.toNat < 128 :=
    toNat_lt_of_mem_takeWhile CharClass.toNat_lt_of_isIdentifier
  simp only [scan, spanIdentifier]
  split
  · exact hword s
  · exact hword s
  · exact hword s
  · split
    · split
      · intro c hc
        rcases List.mem_append.mp hc with hc | hc
        · exact hword s c hc
        · rcases List.mem_cons.mp hc with rfl | hc
          · decide
          · exact hword _ c hc
      · exact hword s
    · exact hword s

end Number
end ScriptFront
