import ScriptFront.Proofs.Number.Floating

/-! Numeric literals at the start of a text: where one ends, and which number it is. -/
namespace ScriptFront.Number

/-- A first run of characters that a sign may go on: no decimal or hexadecimal literal, with the
mark of an exponent at its end. -/
def AsksSign (run : List Char) : Prop :=
  (∀ c digits, run ≠ '0' :: 'x' :: c :: digits) ∧ ¬IsDigits run ∧
    (run.getLast? = some 'e' ∨ run.getLast? = some 'E')

/-- What the literal at the start of `s` takes, and what it leaves. -/
inductive Extent (s : List Char) : List Char → List Char → Prop
  | run (h : AsksSign (s.takeWhile CharClass.isIdentifier) →
        ∀ r, s.dropWhile CharClass.isIdentifier ≠ '-' :: r) :
      Extent s (s.takeWhile CharClass.isIdentifier) (s.dropWhile CharClass.isIdentifier)
  | signed {r : List Char} (h : AsksSign (s.takeWhile CharClass.isIdentifier))
      (hr : s.dropWhile CharClass.isIdentifier = '-' :: r) :
      Extent s (s.takeWhile CharClass.isIdentifier ++ '-' :: r.takeWhile CharClass.isIdentifier)
        (r.dropWhile CharClass.isIdentifier)

/-- The value of a literal by its form alone. -/
inductive Reads (raw : List Char) : Except NumberError Number → Prop
  | integer {value : UInt64} (h : Integer.Numeral raw value.toNat) :
      Reads raw (.ok (.integer value))
  | overflow {n : Nat} (h : Integer.Numeral raw n) (hn : UInt64.size ≤ n) :
      Reads raw (.error .overflow)
  | float {p : Parts} (h : Floating raw true p) :
      Reads raw (.ok (.float (singleOfDouble p.double)))
  | double {p : Parts} (h : Floating raw false p) : Reads raw (.ok (.double p.double))
  | invalid (hnumeral : ∀ n, ¬Integer.Numeral raw n)
      (hfloating : ∀ isFloat p, ¬Floating raw isFloat p) : Reads raw (.error .invalidDigit)

/-- The value of a literal once it is known where it ends. -/
def ofRaw (raw : List Char) : Except NumberError Number :=
  match Integer.parse raw with
  | .ok value => .ok (integer value)
  | .error .overflow => .error .overflow
  | .error .invalidDigit => parseFloating raw

theorem isDigits_of_writes {s : List Char} {n : Nat} (h : Integer.Writes 10 s n) : IsDigits s := by
  intro c hc
  rw [← isSome_decimalDigit?]
  exact Option.isSome_iff_ne_none.mpr
    (Integer.digit?_ne_none Integer.decimalDigit?_eq_some_iff h c hc)

theorem exists_numeral_of_isDigits {s : List Char} (hne : s ≠ []) (h : IsDigits s) :
    ∃ n, Integer.Numeral s n := by
  have hdigits : ∀ c ∈ s, Integer.decimalDigit? c ≠ none := fun c hc =>
    Option.isSome_iff_ne_none.mp ((isSome_decimalDigit? c).trans (h c hc))
  obtain ⟨n, hn⟩ := Integer.exists_writes Integer.decimalDigit?_eq_some_iff hne hdigits
  exact ⟨n, .decimal hn⟩

theorem minus_notMem_of_numeral {s : List Char} {n : Nat} (h : Integer.Numeral s n) : '-' ∉ s := by
  cases h with
  | decimal h =>
    intro hmem
    exact Integer.digit?_ne_none Integer.decimalDigit?_eq_some_iff h _ hmem rfl
  | @hexadecimal s n h =>
    intro hmem
    have hmem : '-' ∈ s := by simpa using hmem
    exact Integer.digit?_ne_none Integer.hexDigit?_eq_some_iff h _ hmem rfl

theorem x_notMem_of_floating {s : List Char} {isFloat : Bool} {p : Parts}
    (h : Floating s isFloat p) : 'x' ∉ s := by
  intro hmem
  cases h with
  | double h => cases h.isFloatingChar _ hmem
  | @float s p h =>
    have hmem : 'x' ∈ s := by simpa using hmem
    cases h.isFloatingChar _ hmem

/-- A point or the mark of an exponent is no digit. -/
theorem Unsuffixed.exists_not_isDigit {s : List Char} {p : Parts} (h : Unsuffixed s p) :
    ∃ c ∈ s, CharClass.isDigit c = false := by
  obtain ⟨_, _, hfraction, hexponent, hpresent⟩ := h
  rcases hpresent with hpoint | hmark
  · cases hfraction with
    | absent => exact absurd rfl hpoint
    | present _ => exact ⟨'.', by simp, rfl⟩
  · cases hexponent with
    | absent => exact absurd rfl hmark
    | @positive mark _ hm _ _ | @negative mark _ hm _ _ =>
      refine ⟨mark, by simp, ?_⟩
      rcases hm with rfl | rfl <;> rfl

theorem not_isDigits_of_floating {s : List Char} {isFloat : Bool} {p : Parts}
    (h : Floating s isFloat p) : ¬IsDigits s := by
  intro hdigits
  have hne : ∀ {c}, c ∈ s → CharClass.isDigit c ≠ false := fun hmem hc => by
    rw [hdigits _ hmem] at hc
    cases hc
  cases h with
  | double h =>
    obtain ⟨c, hmem, hc⟩ := h.exists_not_isDigit
    exact hne hmem hc
  | float h =>
    obtain ⟨c, hmem, hc⟩ := h.exists_not_isDigit
    exact hne (List.mem_append_left _ hmem) hc

theorem not_numeral_of_floating {s : List Char} {isFloat : Bool} {p : Parts}
    (h : Floating s isFloat p) (n : Nat) : ¬Integer.Numeral s n := by
  rintro (hn | hn)
  · exact not_isDigits_of_floating h (isDigits_of_writes hn)
  · exact x_notMem_of_floating h (by simp)

theorem ofRaw_eq_iff {c : Char} (hc : CharClass.isDigit c = true) {s : List Char}
    {value : Except NumberError Number} : ofRaw (c :: s) = value ↔ Reads (c :: s) value := by
  constructor
  · rintro rfl
    rw [ofRaw]
    rcases hparse : Integer.parse (c :: s) with (_ | _) | v <;> dsimp only
    · have hnumeral := Integer.parse_eq_invalidDigit_iff.mp hparse
      rcases parseFloating_cases hc s with ⟨isFloat, p, hp, heq⟩ | ⟨hfloating, heq⟩
      · rw [heq]
        cases isFloat with
        | false => exact .double hp
        | true => exact .float hp
      · rw [heq]
        exact .invalid hnumeral hfloating
    · obtain ⟨n, hn, hsize⟩ := Integer.parse_eq_overflow_iff.mp hparse
      exact .overflow hn hsize
    · exact .integer (Integer.parse_eq_ok_iff.mp hparse)
  · intro h
    cases h with
    | integer h => rw [ofRaw, Integer.parse_eq_ok_iff.mpr h]
    | overflow h hn => rw [ofRaw, Integer.parse_eq_overflow_iff.mpr ⟨_, h, hn⟩]
    | float h =>
      rw [ofRaw, Integer.parse_of_not_numeral (not_numeral_of_floating h)]
      exact parseFloating_of_floating h
    | double h =>
      rw [ofRaw, Integer.parse_of_not_numeral (not_numeral_of_floating h)]
      exact parseFloating_of_floating h
    | invalid hnumeral hfloating =>
      rw [ofRaw, Integer.parse_of_not_numeral hnumeral]
      rcases parseFloating_cases hc s with ⟨isFloat, p, hp, _⟩ | ⟨_, heq⟩
      · exact absurd hp (hfloating isFloat p)
      · exact heq

theorem endsInExponent_iff {c : Char} (hc : CharClass.isDigit c = true) {s : List Char} :
    endsInExponent (c :: s) = true ↔
      (c :: s).getLast? = some 'e' ∨ (c :: s).getLast? = some 'E' := by
  have hlength : ∀ {mark}, CharClass.isDigit mark = false → (c :: s).getLast? = some mark →
      2 ≤ (c :: s).length := by
    intro mark hmark hlast
    rcases s with _ | ⟨d, s⟩
    · obtain rfl : c = mark := Option.some.inj hlast
      rw [hc] at hmark
      cases hmark
    · simp
  simp only [endsInExponent, Bool.and_eq_true, decide_eq_true_eq, Bool.or_eq_true, beq_iff_eq]
  constructor
  · exact And.right
  · intro h
    refine ⟨?_, h⟩
    rcases h with h | h
    · exact hlength rfl h
    · exact hlength rfl h

theorem AsksSign.not_numeral {run : List Char} (h : AsksSign run) (n : Nat) :
    ¬Integer.Numeral run n := by
  rintro (hn | hn)
  · exact h.2.1 (isDigits_of_writes hn)
  · obtain ⟨c, digits, rfl⟩ := List.exists_cons_of_ne_nil hn.ne_nil
    exact h.1 c digits rfl

theorem parse_map_integer_of_hexadecimal (c : Char) (s : List Char) :
    (Integer.parse ('0' :: 'x' :: c :: s)).map integer = ofRaw ('0' :: 'x' :: c :: s) := by
  rw [ofRaw]
  rcases Integer.parse ('0' :: 'x' :: c :: s) with (_ | _) | value
  · have hzero : CharClass.isDigit '0' = true := rfl
    rcases parseFloating_cases hzero ('x' :: c :: s) with ⟨_, _, hp, _⟩ | ⟨_, heq⟩
    · exact absurd (by simp) (x_notMem_of_floating hp)
    · exact heq.symm
  · rfl
  · rfl

section Scan

variable {c : Char} {s run rest : List Char}

/-- A literal that ends with its first run of characters. -/
theorem scan_of_not_asksSign (hc : CharClass.isDigit c = true)
    (hspan : spanIdentifier s = (c :: run, rest))
    (h : AsksSign (c :: run) → ∀ r, rest ≠ '-' :: r) :
    scan s = ⟨c :: run, ofRaw (c :: run), rest⟩ := by
  have hends := endsInExponent_iff hc (s := run)
  unfold scan
  rw [hspan]
  dsimp only
  -- a hexadecimal or decimal literal ends here; of the others only a sign could be the next
  split
  · next heq => rw [heq, parse_map_integer_of_hexadecimal]
  · next hparse _ => rw [ofRaw, hparse]
  · next hparse _ => rw [ofRaw, hparse]
  · next hparse hhex =>
    have hvalue : parseFloating (c :: run) = ofRaw (c :: run) := by rw [ofRaw, hparse]
    rw [hvalue]
    split
    · next r =>
      split_ifs with hmark
      · have hasks : AsksSign (c :: run) := by
          refine ⟨fun d digits => hhex d digits, fun hdigits => ?_, hends.mp hmark⟩
          obtain ⟨n, hn⟩ := exists_numeral_of_isDigits (List.cons_ne_nil c run) hdigits
          exact Integer.parse_eq_invalidDigit_iff.mp hparse n hn
        exact absurd rfl (h hasks r)
      · rfl
    · rfl

/-- A literal that goes on with the sign of its exponent. -/
theorem scan_of_asksSign (hc : CharClass.isDigit c = true)
    (hspan : spanIdentifier s = (c :: run, '-' :: rest)) (h : AsksSign (c :: run)) :
    scan s = ⟨c :: run ++ '-' :: rest.takeWhile CharClass.isIdentifier,
      ofRaw (c :: run ++ '-' :: rest.takeWhile CharClass.isIdentifier),
      rest.dropWhile CharClass.isIdentifier⟩ := by
  have hmark := (endsInExponent_iff hc).mpr h.2.2
  have hparse := Integer.parse_of_not_numeral h.not_numeral
  unfold scan
  rw [hspan]
  dsimp only
  rw [hparse]
  split
  · next heq => exact absurd heq (h.1 _ _)
  · next heq _ => cases heq
  · next heq _ => cases heq
  · have hsigned := Integer.parse_of_not_numeral (s := c :: run ++
      '-' :: rest.takeWhile CharClass.isIdentifier) fun n hn => minus_notMem_of_numeral hn (by simp)
    simp only [hmark, if_true, spanIdentifier, ofRaw, hsigned]

end Scan

theorem scan_raw_eq {c : Char} (hc : CharClass.isDigit c = true) (s : List Char) :
    ∃ raw, (scan (c :: s)).raw = c :: raw := by
  obtain ⟨more, hmore⟩ := takeWhile_append_scan (c :: s)
  rw [List.takeWhile_cons_of_pos (CharClass.isIdentifier_of_isDigit hc)] at hmore
  exact ⟨_, hmore⟩

theorem scan_cases {c : Char} (hc : CharClass.isDigit c = true) (s : List Char) :
    Extent (c :: s) (scan (c :: s)).raw (scan (c :: s)).rest ∧
      (scan (c :: s)).value = ofRaw (scan (c :: s)).raw := by
  have hrun : (c :: s).takeWhile CharClass.isIdentifier = c :: s.takeWhile CharClass.isIdentifier :=
    List.takeWhile_cons_of_pos (CharClass.isIdentifier_of_isDigit hc)
  have hspan : spanIdentifier (c :: s) = (c :: s.takeWhile CharClass.isIdentifier,
      (c :: s).dropWhile CharClass.isIdentifier) := by rw [spanIdentifier, hrun]
  by_cases h : AsksSign (c :: s.takeWhile CharClass.isIdentifier) ∧
      ∃ r, (c :: s).dropWhile CharClass.isIdentifier = '-' :: r
  · obtain ⟨hasks, r, hr⟩ := h
    have hextent := Extent.signed (hrun ▸ hasks) hr
    rw [hrun] at hextent
    rw [hr] at hspan
    rw [scan_of_asksSign hc hspan hasks]
    exact ⟨hextent, rfl⟩
  · have hstop : AsksSign (c :: s.takeWhile CharClass.isIdentifier) →
        ∀ r, (c :: s).dropWhile CharClass.isIdentifier ≠ '-' :: r :=
      fun hasks r hr => h ⟨hasks, r, hr⟩
    have hextent := Extent.run (hrun ▸ hstop)
    rw [hrun] at hextent
    rw [scan_of_not_asksSign hc hspan hstop]
    exact ⟨hextent, rfl⟩

/-- A literal takes a run of characters, and with the mark of an exponent at its end also a sign and
one more run; nothing is lost. Its value is given by its form alone: every text has exactly one. -/
theorem scan_reads {c : Char} (hc : CharClass.isDigit c = true) (s : List Char) :
    Extent (c :: s) (scan (c :: s)).raw (scan (c :: s)).rest ∧
      (scan (c :: s)).raw ++ (scan (c :: s)).rest = c :: s ∧
      ∀ value, (scan (c :: s)).value = value ↔ Reads (scan (c :: s)).raw value := by
  obtain ⟨hextent, hvalue⟩ := scan_cases hc s
  have hlost := raw_append_rest_scan (c :: s)
  refine ⟨hextent, hlost, fun value => ?_⟩
  obtain ⟨raw, hraw⟩ := scan_raw_eq hc s
  rw [hvalue, hraw]
  exact ofRaw_eq_iff hc

/-- The sign belongs to the literal, and the blank ends it. -/
theorem scan_reads_signed :
    CharClass.isDigit '1' = true ∧
      Extent "1.5e-3f + x".toList "1.5e-3f".toList " + x".toList ∧
      Reads "1.5e-3f".toList (.ok (.float 0x3AC49BA6)) := by
  obtain ⟨hextent, -, hreads⟩ := scan_reads (c := '1') rfl ".5e-3f + x".toList
  have hraw : (scan ('1' :: ".5e-3f + x".toList)).raw = "1.5e-3f".toList := by decide +kernel
  have hrest : (scan ('1' :: ".5e-3f + x".toList)).rest = " + x".toList := by decide +kernel
  have hvalue : (scan ('1' :: ".5e-3f + x".toList)).value = .ok (.float 0x3AC49BA6) := by
    decide +kernel
  rw [hraw, hrest] at hextent
  exact ⟨rfl, hextent, hraw ▸ (hreads _).mp hvalue⟩

end ScriptFront.Number
