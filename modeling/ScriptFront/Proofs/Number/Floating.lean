import ScriptFront.Number.Literal
import ScriptFront.Proofs.Number.Numeral
import Mathlib.Data.List.TakeWhile

/-! The form of a floating literal: digits, then a fraction or an exponent or both, then perhaps a
suffix. A text that begins with a digit is read as a floating literal exactly if it has the form. -/
namespace ScriptFront

section SplitAtFirst

variable {p : Char → Bool}

theorem splitAtFirst_of_forall {s : List Char} (h : ∀ c ∈ s, p c = false) :
    splitAtFirst p s = (s, none) := by
  have htake : s.takeWhile (!p ·) = s :=
    List.takeWhile_eq_self_iff.mpr fun c hc => by simp [h c hc]
  have hdrop : s.dropWhile (!p ·) = [] :=
    List.dropWhile_eq_nil_iff.mpr fun c hc => by simp [h c hc]
  rw [splitAtFirst, htake, hdrop]
  rfl

theorem splitAtFirst_append {a b : List Char} {c : Char} (h : ∀ d ∈ a, p d = false)
    (hc : p c = true) : splitAtFirst p (a ++ c :: b) = (a, some b) := by
  have ha : ∀ d ∈ a, (!p d) = true := fun d hd => by simp [h d hd]
  rw [splitAtFirst, List.takeWhile_append_of_pos ha, List.dropWhile_append_of_pos ha]
  simp [hc]

theorem splitAtFirst_cons {c : Char} (hc : p c = false) (s : List Char) :
    ∃ a rest, splitAtFirst p (c :: s) = (c :: a, rest) :=
  ⟨s.takeWhile (!p ·), _, by rw [splitAtFirst, List.takeWhile_cons_of_pos (by simp [hc])]⟩

/-- A text is split at the first character that counts, if there is one. -/
theorem splitAtFirst_cases (p : Char → Bool) (s : List Char) :
    ((∀ c ∈ s, p c = false) ∧ splitAtFirst p s = (s, none)) ∨
      ∃ a c b, s = a ++ c :: b ∧ (∀ d ∈ a, p d = false) ∧ p c = true ∧
        splitAtFirst p s = (a, some b) := by
  rcases hfind : s.find? p with _ | c
  · have h : ∀ c ∈ s, p c = false := fun c hc => by simpa using List.find?_eq_none.mp hfind c hc
    exact .inl ⟨h, splitAtFirst_of_forall h⟩
  · obtain ⟨hc, a, b, rfl, ha⟩ := List.find?_eq_some_iff_append.mp hfind
    have hbefore : ∀ d ∈ a, p d = false := fun d hd => by simpa using ha d hd
    exact .inr ⟨a, c, b, rfl, hbefore, hc, splitAtFirst_append hbefore hc⟩

end SplitAtFirst

namespace Number

/-- Any number of digits, also none. -/
def IsDigits (s : List Char) : Prop := ∀ c ∈ s, CharClass.isDigit c = true

/-- A fraction as it is written, and its digits. -/
inductive Fraction : List Char → List Char → Prop
  | absent : Fraction [] []
  | present {digits : List Char} (h : IsDigits digits) : Fraction ('.' :: digits) digits

/-- An exponent as it is written, whether it is negative, and its digits. -/
inductive Exponent : List Char → Bool → List Char → Prop
  | absent : Exponent [] false []
  | positive {mark : Char} {digits : List Char} (hmark : mark = 'e' ∨ mark = 'E')
      (hne : digits ≠ []) (h : IsDigits digits) : Exponent (mark :: digits) false digits
  | negative {mark : Char} {digits : List Char} (hmark : mark = 'e' ∨ mark = 'E')
      (hne : digits ≠ []) (h : IsDigits digits) : Exponent (mark :: '-' :: digits) true digits

/-- A floating literal without its suffix. A fraction or an exponent is present. -/
inductive Unsuffixed : List Char → Parts → Prop
  | intro {whole point fraction mark exponent : List Char} {negative : Bool} (hne : whole ≠ [])
      (hwhole : IsDigits whole) (hfraction : Fraction point fraction)
      (hexponent : Exponent mark negative exponent) (hpresent : point ≠ [] ∨ mark ≠ []) :
      Unsuffixed (whole ++ point ++ mark) ⟨whole, fraction, negative, exponent⟩

/-- A floating literal, whether it is written with the suffix, and its parts. -/
inductive Floating : List Char → Bool → Parts → Prop
  | double {s : List Char} {p : Parts} (h : Unsuffixed s p) : Floating s false p
  | float {s : List Char} {p : Parts} (h : Unsuffixed s p) : Floating (s ++ ['f']) true p

/-- The number that a floating literal stands for. -/
def Parts.number (isFloat : Bool) (p : Parts) : Number :=
  if isFloat then .float (singleOfDouble p.double) else .double p.double

theorem isSome_decimalDigit? (c : Char) :
    (Integer.decimalDigit? c).isSome = CharClass.isDigit c := by
  unfold Integer.decimalDigit? CharClass.isDigit Char.isDigit
  split
  · next h => simpa [Char.le_def] using h
  · next h => simpa [Char.le_def] using h

theorem isDecimal_iff {s : List Char} : isDecimal s = true ↔ IsDigits s := by
  simp only [isDecimal, List.all_eq_true, isSome_decimalDigit?, IsDigits]

theorem Fraction.isDigits {point fraction : List Char} (h : Fraction point fraction) :
    IsDigits fraction := by
  cases h with
  | absent => exact List.forall_mem_nil _
  | present h => exact h

theorem Exponent.isDigits {text exponent : List Char} {negative : Bool}
    (h : Exponent text negative exponent) : IsDigits exponent := by
  cases h with
  | absent => exact List.forall_mem_nil _
  | positive _ _ h | negative _ _ h => exact h

/-- The characters that may stand in a floating literal without its suffix. -/
def isFloatingChar (c : Char) : Bool :=
  CharClass.isDigit c || c == '.' || c == 'e' || c == 'E' || c == '-'

theorem isFloatingChar_of_isDigit {c : Char} (h : CharClass.isDigit c = true) :
    isFloatingChar c = true := by
  simp [isFloatingChar, h]

theorem Fraction.isFloatingChar {point fraction : List Char} (h : Fraction point fraction) :
    ∀ c ∈ point, isFloatingChar c = true := by
  cases h with
  | absent => exact List.forall_mem_nil _
  | present h =>
    exact List.forall_mem_cons.mpr ⟨rfl, fun c hc => isFloatingChar_of_isDigit (h c hc)⟩

theorem Exponent.isFloatingChar {text exponent : List Char} {negative : Bool}
    (h : Exponent text negative exponent) : ∀ c ∈ text, isFloatingChar c = true := by
  have hmark : ∀ {mark}, mark = 'e' ∨ mark = 'E' → Number.isFloatingChar mark = true := by
    rintro _ (rfl | rfl) <;> rfl
  cases h with
  | absent => exact List.forall_mem_nil _
  | positive hm _ h =>
    exact List.forall_mem_cons.mpr ⟨hmark hm, fun c hc => isFloatingChar_of_isDigit (h c hc)⟩
  | negative hm _ h =>
    refine List.forall_mem_cons.mpr ⟨hmark hm, List.forall_mem_cons.mpr ⟨rfl, ?_⟩⟩
    exact fun c hc => isFloatingChar_of_isDigit (h c hc)

theorem Unsuffixed.isFloatingChar {s : List Char} {p : Parts} (h : Unsuffixed s p) :
    ∀ c ∈ s, isFloatingChar c = true := by
  obtain ⟨_, hwhole, hfraction, hexponent, _⟩ := h
  intro c hc
  rcases List.mem_append.mp hc with hc | hc
  · rcases List.mem_append.mp hc with hc | hc
    · exact isFloatingChar_of_isDigit (hwhole c hc)
    · exact hfraction.isFloatingChar c hc
  · exact hexponent.isFloatingChar c hc

theorem isDigit_ne {c d : Char} (h : CharClass.isDigit c = true)
    (hd : CharClass.isDigit d = false) : c ≠ d := by
  rintro rfl
  rw [h] at hd
  cases hd

theorem mark_eq_false_of_isDigit {c : Char} (h : CharClass.isDigit c = true) :
    (c == 'e' || c == 'E') = false := by
  have hlower : c ≠ 'e' := isDigit_ne h rfl
  have hupper : c ≠ 'E' := isDigit_ne h rfl
  simp [hlower, hupper]

/-- No mark of an exponent stands before the exponent. -/
theorem Fraction.not_mark {whole point fraction : List Char} (hwhole : IsDigits whole)
    (h : Fraction point fraction) : ∀ c ∈ whole ++ point, (c == 'e' || c == 'E') = false := by
  intro c hc
  rcases List.mem_append.mp hc with hc | hc
  · exact mark_eq_false_of_isDigit (hwhole c hc)
  · cases h with
    | absent => cases hc
    | present h =>
      rcases List.mem_cons.mp hc with rfl | hc
      · rfl
      · exact mark_eq_false_of_isDigit (h c hc)

theorem Fraction.splitAtFirst {whole point fraction : List Char} (hwhole : IsDigits whole)
    (h : Fraction point fraction) :
    (point = [] ∧ fraction = [] ∧ splitAtFirst (· == '.') (whole ++ point) = (whole, none)) ∨
      splitAtFirst (· == '.') (whole ++ point) = (whole, some fraction) := by
  have hdot : ∀ c ∈ whole, (c == '.') = false := fun c hc =>
    beq_eq_false_iff_ne.mpr (isDigit_ne (hwhole c hc) rfl)
  cases h with
  | absent =>
    rw [List.append_nil]
    exact .inl ⟨rfl, rfl, splitAtFirst_of_forall hdot⟩
  | present h => exact .inr (splitAtFirst_append hdot rfl)

theorem split?_of_unsuffixed {s : List Char} {p : Parts} (h : Unsuffixed s p) :
    Parts.split? s = some p := by
  obtain ⟨hne, hwhole, hfraction, hexponent, hpresent⟩ := h
  have hmantissa := hfraction.not_mark hwhole
  have hmark : ∀ {mark : Char}, mark = 'e' ∨ mark = 'E' → (mark == 'e' || mark == 'E') = true := by
    rintro _ (rfl | rfl) <;> rfl
  cases hexponent with
  | absent =>
    rw [List.append_nil, Parts.split?, splitAtFirst_of_forall hmantissa]
    rcases hfraction.splitAtFirst hwhole with ⟨hpoint, _⟩ | hsplit
    · exact absurd rfl (hpresent.resolve_left (absurd hpoint))
    · simp only [hsplit]
  | @positive mark digits hm hne h =>
    obtain ⟨d, digits, rfl⟩ := List.exists_cons_of_ne_nil hne
    have hd : d ≠ '-' := isDigit_ne (h d List.mem_cons_self) rfl
    rw [Parts.split?, splitAtFirst_append hmantissa (hmark hm)]
    rcases hfraction.splitAtFirst hwhole with ⟨_, rfl, hsplit⟩ | hsplit <;> simp [hsplit, hd]
  | @negative mark digits hm hne h =>
    obtain ⟨d, digits, rfl⟩ := List.exists_cons_of_ne_nil hne
    rw [Parts.split?, splitAtFirst_append hmantissa (hmark hm)]
    rcases hfraction.splitAtFirst hwhole with ⟨_, rfl, hsplit⟩ | hsplit <;> simp [hsplit]

/-- What stands before an exponent is a whole part and perhaps a fraction. -/
theorem exists_fraction {mantissa whole : List Char} {fraction : Option (List Char)}
    (hsplit : splitAtFirst (· == '.') mantissa = (whole, fraction))
    (hdigits : IsDigits (fraction.getD [])) :
    ∃ point, mantissa = whole ++ point ∧ Fraction point (fraction.getD []) ∧
      (fraction.isSome = true → point ≠ []) := by
  rcases splitAtFirst_cases (· == '.') mantissa with ⟨_, heq⟩ | ⟨a, c, b, rfl, _, hc, heq⟩
  · rw [hsplit] at heq
    cases heq
    exact ⟨[], (List.append_nil _).symm, .absent, nofun⟩
  · rw [hsplit] at heq
    cases heq
    cases beq_iff_eq.mp hc
    exact ⟨'.' :: b, rfl, .present hdigits, fun _ => List.cons_ne_nil _ _⟩

theorem unsuffixed_of_split? {s : List Char} {p : Parts} (h : Parts.split? s = some p)
    (hvalid : p.isValid = true) (hne : p.whole ≠ []) : Unsuffixed s p := by
  obtain ⟨hdigits, hexponent⟩ := Bool.and_eq_true_iff.mp hvalid
  obtain ⟨hwhole, hfraction⟩ := Bool.and_eq_true_iff.mp hdigits
  rw [isDecimal_iff] at hwhole hfraction hexponent
  rw [Parts.split?] at h
  rcases splitAtFirst_cases (fun c => c == 'e' || c == 'E') s with
    ⟨_, heq⟩ | ⟨mantissa, mark, rest, rfl, _, hmark, heq⟩
  · rw [heq] at h
    dsimp only at h
    rcases hsplit : splitAtFirst (· == '.') s with ⟨whole, _ | fraction⟩
    · rw [hsplit] at h
      cases h
    · rw [hsplit] at h
      cases h
      obtain ⟨point, rfl, hpoint, hpresent⟩ := exists_fraction hsplit hfraction
      have hform := Unsuffixed.intro hne hwhole hpoint .absent (.inl (hpresent rfl))
      rwa [List.append_nil] at hform
  · rw [heq] at h
    dsimp only at h
    have hmark : mark = 'e' ∨ mark = 'E' := by simpa using hmark
    rcases hsplit : splitAtFirst (· == '.') mantissa with ⟨whole, fraction⟩
    rw [hsplit] at h
    dsimp only at h
    split at h
    · cases h
    · cases h
    · next digits hempty =>
      cases h
      obtain ⟨point, rfl, hpoint, _⟩ := exists_fraction hsplit hfraction
      have hdigits : digits ≠ [] := fun hnil => hempty (hnil ▸ rfl)
      have hform := Exponent.negative hmark hdigits hexponent
      exact .intro hne hwhole hpoint hform (.inr (List.cons_ne_nil _ _))
    · next hempty _ _ =>
      cases h
      obtain ⟨point, rfl, hpoint, _⟩ := exists_fraction hsplit hfraction
      have hform := Exponent.positive hmark hempty hexponent
      exact .intro hne hwhole hpoint hform (.inr (List.cons_ne_nil _ _))

/-- A text that begins with a digit has a whole part. -/
theorem whole_ne_nil {c : Char} (hc : CharClass.isDigit c = true) {s : List Char} {p : Parts}
    (h : Parts.split? (c :: s) = some p) : p.whole ≠ [] := by
  have hdot : (c == '.') = false := beq_eq_false_iff_ne.mpr (isDigit_ne hc rfl)
  obtain ⟨mantissa, exponent, hmantissa⟩ :=
    splitAtFirst_cons (p := fun d => d == 'e' || d == 'E') (mark_eq_false_of_isDigit hc) s
  obtain ⟨whole, fraction, hwhole⟩ := splitAtFirst_cons (p := (· == '.')) hdot mantissa
  rw [Parts.split?, hmantissa] at h
  rcases exponent with _ | exponent <;> dsimp only at h <;> rw [hwhole] at h
  · rcases fraction with _ | fraction <;> cases h
    exact List.cons_ne_nil c whole
  · dsimp only at h
    split at h <;> cases h
    · exact List.cons_ne_nil c whole
    · exact List.cons_ne_nil c whole

theorem Unsuffixed.two_le_length {s : List Char} {p : Parts} (h : Unsuffixed s p) :
    2 ≤ s.length := by
  obtain ⟨hne, _, _, _, hpresent⟩ := h
  have hwhole := List.length_pos_iff.mpr hne
  rw [List.length_append, List.length_append]
  rcases hpresent with h | h
  · have hpoint := List.length_pos_iff.mpr h
    omega
  · have hmark := List.length_pos_iff.mpr h
    omega

theorem Unsuffixed.isValid {s : List Char} {p : Parts} (h : Unsuffixed s p) :
    p.isValid = true := by
  obtain ⟨_, hwhole, hfraction, hexponent, _⟩ := h
  rw [Parts.isValid, isDecimal_iff.mpr hwhole, isDecimal_iff.mpr hfraction.isDigits,
    isDecimal_iff.mpr hexponent.isDigits]
  rfl

/-- The number of a literal whose suffix is already taken. -/
def readParts (isFloat : Bool) (body : List Char) : Except NumberError Number :=
  match Parts.split? body with
  | none => .error .invalidDigit
  | some p => if p.isValid then .ok (p.number isFloat) else .error .invalidDigit

theorem parseFloating_concat {body : List Char} (hne : body ≠ []) :
    parseFloating (body ++ ['f']) = readParts true body := by
  have hlength : ¬(body ++ ['f']).length < 2 := by
    have hpos := List.length_pos_iff.mpr hne
    rw [List.length_append, List.length_singleton]
    omega
  have hlast : ((body ++ ['f']).getLast? == some 'f') = true := by simp
  rw [parseFloating, if_neg hlength, hlast]
  simp only [if_true, List.dropLast_concat]
  rfl

theorem parseFloating_eq {s : List Char} (hlength : 2 ≤ s.length) (hlast : s.getLast? ≠ some 'f') :
    parseFloating s = readParts false s := by
  have hlast : (s.getLast? == some 'f') = false := beq_eq_false_iff_ne.mpr hlast
  rw [parseFloating, if_neg (Nat.not_lt.mpr hlength), hlast]
  rfl

theorem readParts_of_unsuffixed {body : List Char} {p : Parts} (h : Unsuffixed body p)
    (isFloat : Bool) : readParts isFloat body = .ok (p.number isFloat) := by
  rw [readParts, split?_of_unsuffixed h]
  exact if_pos h.isValid

theorem unsuffixed_of_readParts {c : Char} (hc : CharClass.isDigit c = true) {body : List Char}
    {isFloat : Bool} {n : Number} (h : readParts isFloat (c :: body) = .ok n) :
    ∃ p, Unsuffixed (c :: body) p ∧ n = p.number isFloat := by
  unfold readParts at h
  split at h
  · cases h
  · next p hsplit =>
    split_ifs at h with hvalid
    cases h
    exact ⟨p, unsuffixed_of_split? hsplit hvalid (whole_ne_nil hc hsplit), rfl⟩

theorem parseFloating_of_floating {s : List Char} {isFloat : Bool} {p : Parts}
    (h : Floating s isFloat p) : parseFloating s = .ok (p.number isFloat) := by
  cases h with
  | double h =>
    have hlast : s.getLast? ≠ some 'f' := by
      intro heq
      have hf := h.isFloatingChar 'f' (List.mem_of_getLast? heq)
      cases hf
    rw [parseFloating_eq h.two_le_length hlast, readParts_of_unsuffixed h]
  | @float s p h =>
    have hne : s ≠ [] := by
      rintro rfl
      cases h.two_le_length
    rw [parseFloating_concat hne, readParts_of_unsuffixed h]

theorem floating_of_parseFloating {c : Char} (hc : CharClass.isDigit c = true) {s : List Char}
    {n : Number} (h : parseFloating (c :: s) = .ok n) :
    ∃ isFloat p, Floating (c :: s) isFloat p ∧ n = p.number isFloat := by
  by_cases hlast : (c :: s).getLast? = some 'f'
  · obtain ⟨body, hbody⟩ := List.getLast?_eq_some_iff.mp hlast
    rcases body with _ | ⟨d, body⟩
    · cases hbody
      cases hc
    · rw [List.cons_append, List.cons.injEq] at hbody
      obtain ⟨rfl, rfl⟩ := hbody
      rw [← List.cons_append, parseFloating_concat (List.cons_ne_nil c body)] at h
      obtain ⟨p, hp, hn⟩ := unsuffixed_of_readParts hc h
      exact ⟨true, p, .float hp, hn⟩
  · have hlength : 2 ≤ (c :: s).length := by
      by_contra hshort
      rw [parseFloating, if_pos (Nat.lt_of_not_le hshort)] at h
      cases h
    rw [parseFloating_eq hlength hlast] at h
    obtain ⟨p, hp, hn⟩ := unsuffixed_of_readParts hc h
    exact ⟨false, p, .double hp, hn⟩

theorem parseFloating_ne_overflow (s : List Char) : parseFloating s ≠ .error .overflow := by
  unfold parseFloating
  split
  · nofun
  · dsimp only
    split
    · nofun
    · split <;> nofun

theorem parseFloating_cases {c : Char} (hc : CharClass.isDigit c = true) (s : List Char) :
    (∃ isFloat p, Floating (c :: s) isFloat p ∧
        parseFloating (c :: s) = .ok (p.number isFloat)) ∨
      (∀ isFloat p, ¬Floating (c :: s) isFloat p) ∧
        parseFloating (c :: s) = .error .invalidDigit := by
  rcases h : parseFloating (c :: s) with (_ | _) | n
  · refine .inr ⟨fun isFloat p hp => ?_, rfl⟩
    rw [parseFloating_of_floating hp] at h
    cases h
  · exact absurd h (parseFloating_ne_overflow _)
  · obtain ⟨isFloat, p, hp, rfl⟩ := floating_of_parseFloating hc h
    exact .inl ⟨isFloat, p, hp, rfl⟩

end Number
end ScriptFront
