import ScriptFront.Number.Integer
import Mathlib.Data.List.Induction

/-! Integers as they are written: digits of a base, and the number that they stand for. A literal is
read to exactly its number or, if that has more than 64 bits, refused for its size; a text that is no
literal is refused for a character, also where the digits before it are too many. -/
namespace ScriptFront.Integer

/-- The digits above nine are letters of either case. -/
def WritesDigit (base : Nat) (c : Char) (d : Nat) : Prop :=
  d < base ∧ (c = d.digitChar ∨ c = d.digitChar.toUpper)

/-- The number that a text of at least one digit stands for. -/
inductive Writes (base : Nat) : List Char → Nat → Prop
  | single {c : Char} {d : Nat} (h : WritesDigit base c d) : Writes base [c] d
  | more {s : List Char} {n : Nat} {c : Char} {d : Nat} (h : Writes base s n)
      (hc : WritesDigit base c d) : Writes base (s ++ [c]) (n * base + d)

/-- The number that an integer literal stands for, of any size. -/
inductive Numeral : List Char → Nat → Prop
  | decimal {s : List Char} {n : Nat} (h : Writes 10 s n) : Numeral s n
  | hexadecimal {s : List Char} {n : Nat} (h : Writes 16 s n) : Numeral ('0' :: 'x' :: s) n

/-- The number itself, if it has 64 bits. -/
def narrow? (n : Nat) : Option UInt64 := if n < UInt64.size then some (UInt64.ofNat n) else none

/-- What is read of a literal that stands for `n`. -/
def narrow (n : Nat) : Except NumberError UInt64 := (narrow? n).elim (.error .overflow) .ok

theorem narrow_eq_ok_iff {n : Nat} {value : UInt64} : narrow n = .ok value ↔ value.toNat = n := by
  unfold narrow narrow?
  split
  · next h =>
    constructor
    · rintro ⟨⟩
      exact UInt64.toNat_ofNat_of_lt' h
    · rintro rfl
      rw [UInt64.ofNat_toNat]
      rfl
  · next h =>
    constructor
    · rintro ⟨⟩
    · rintro rfl
      exact absurd value.toNat_lt h

theorem narrow_eq_overflow_iff {n : Nat} : narrow n = .error .overflow ↔ UInt64.size ≤ n := by
  unfold narrow narrow?
  split
  · next h => exact ⟨nofun, fun hn => absurd h (Nat.not_lt.mpr hn)⟩
  · next h => exact ⟨fun _ => Nat.not_lt.mp h, fun _ => rfl⟩

theorem narrow_ne_invalidDigit (n : Nat) : narrow n ≠ .error .invalidDigit := by
  unfold narrow narrow?
  split <;> nofun

/-- A digit more at the end of a number. Once a number is too large it stays so. -/
theorem narrow?_bind_push? {base : Nat} (hbase : 0 < base) (n d : Nat) :
    (narrow? n).bind (push? base · d) = narrow? (n * base + d) := by
  by_cases h : n < UInt64.size
  · rw [narrow?, if_pos h, Option.bind_some, push?, UInt64.toNat_ofNat_of_lt' h]
    rfl
  · have hle : n ≤ n * base + d :=
      Nat.le_trans (Nat.le_mul_of_pos_right n hbase) (Nat.le_add_right _ d)
    have hmore : ¬n * base + d < UInt64.size := fun hlt => h (Nat.lt_of_le_of_lt hle hlt)
    rw [narrow?, if_neg h, narrow?, if_neg hmore]
    rfl

theorem readFrom_of_not_digit {base : Nat} {digit? : Char → Option Nat} {c : Char}
    (hc : digit? c = none) {s : List Char} (hmem : c ∈ s) (value : Option UInt64) :
    readFrom base digit? value s = .error .invalidDigit := by
  induction s generalizing value with
  | nil => cases hmem
  | cons a s ih =>
    rw [readFrom]
    rcases ha : digit? a with _ | d
    · rfl
    · rcases List.mem_cons.mp hmem with rfl | hmem
      · rw [hc] at ha
        cases ha
      · exact ih hmem _

section Base

variable {base : Nat} {digit? : Char → Option Nat}
  (hdigit : ∀ c d, digit? c = some d ↔ WritesDigit base c d)

include hdigit

/-- After the digits of a number, the number is what has been read. -/
theorem readFrom_append {s : List Char} {n : Nat} (h : Writes base s n) (rest : List Char) :
    readFrom base digit? (some 0) (s ++ rest) = readFrom base digit? (narrow? n) rest := by
  -- digits come off the end of the text here but off its start there, so the rest stays open
  induction h generalizing rest with
  | @single c d h =>
    have hpush := narrow?_bind_push? (Nat.zero_lt_of_lt h.1) 0 d
    rw [Nat.zero_mul, Nat.zero_add] at hpush
    rw [List.singleton_append, readFrom, (hdigit c d).mpr h, ← hpush]
    rfl
  | @more s n c d h hc ih =>
    rw [List.append_assoc, List.singleton_append, ih, readFrom, (hdigit c d).mpr hc,
      ← narrow?_bind_push? (Nat.zero_lt_of_lt hc.1)]

theorem read_of_writes {s : List Char} {n : Nat} (h : Writes base s n) :
    read base digit? s = narrow n := by
  have hne : s.isEmpty = false := by cases h <;> simp
  have hread := readFrom_append hdigit h []
  rw [List.append_nil] at hread
  rw [read, hne, if_neg Bool.false_ne_true, hread]
  rfl

theorem digit?_ne_none {s : List Char} {n : Nat} (h : Writes base s n) :
    ∀ c ∈ s, digit? c ≠ none := by
  have hone : ∀ {a c d}, c ∈ [a] → WritesDigit base a d → digit? c ≠ none := by
    intro a c d hmem ha
    rw [List.mem_singleton.mp hmem, (hdigit a d).mpr ha]
    exact Option.some_ne_none d
  induction h with
  | single h => exact fun c hmem => hone hmem h
  | more h hc ih =>
    intro c hmem
    rcases List.mem_append.mp hmem with hmem | hmem
    · exact ih c hmem
    · exact hone hmem hc

theorem exists_writes {s : List Char} (hne : s ≠ []) (h : ∀ c ∈ s, digit? c ≠ none) :
    ∃ n, Writes base s n := by
  induction s using List.reverseRecOn with
  | nil => exact absurd rfl hne
  | append_singleton s c ih =>
    obtain ⟨d, hd⟩ := Option.ne_none_iff_exists'.mp (h c (by simp))
    have hc := (hdigit c d).mp hd
    rcases s.eq_nil_or_concat with rfl | ⟨_, _, rfl⟩
    · exact ⟨d, .single hc⟩
    · obtain ⟨n, hn⟩ := ih (by simp) fun a ha => h a (List.mem_append_left _ ha)
      exact ⟨n * base + d, .more hn hc⟩

theorem read_of_not_writes {s : List Char} (h : ∀ n, ¬Writes base s n) :
    read base digit? s = .error .invalidDigit := by
  by_cases hne : s = []
  · rw [hne]
    rfl
  · obtain ⟨c, hmem, hc⟩ : ∃ c ∈ s, digit? c = none := by
      by_contra hall
      push Not at hall
      obtain ⟨n, hn⟩ := exists_writes hdigit hne hall
      exact h n hn
    rw [read, if_neg (by simpa using hne)]
    exact readFrom_of_not_digit hc hmem _

end Base

instance (base : Nat) (c : Char) (d : Nat) : Decidable (WritesDigit base c d) :=
  inferInstanceAs (Decidable (_ ∧ _))

/-- Digits are ASCII characters, so a reader of single digits can be checked character by
character. -/
theorem digit?_eq_some_iff {base : Nat} {digit? : Char → Option Nat}
    (hcode : ∀ c d, digit? c = some d → c.toNat < 128)
    (hsound : ∀ n < 128, ∀ d ∈ digit? (Char.ofNat n), WritesDigit base (Char.ofNat n) d)
    (hcomplete : ∀ d < base, digit? d.digitChar = some d ∧ digit? d.digitChar.toUpper = some d)
    (c : Char) (d : Nat) : digit? c = some d ↔ WritesDigit base c d := by
  constructor
  · intro h
    have hc := hcode c d h
    rw [← Char.ofNat_toNat c] at h ⊢
    exact hsound c.toNat hc d h
  · rintro ⟨hd, rfl | rfl⟩
    · exact (hcomplete d hd).1
    · exact (hcomplete d hd).2

theorem lt_of_decimalDigit? {c : Char} {d : Nat} (h : decimalDigit? c = some d) :
    c.toNat < 128 := by
  unfold decimalDigit? at h
  split at h
  · next hc =>
    have hle : c.toNat ≤ '9'.toNat := Char.le_def.mp hc.2
    exact Nat.lt_of_le_of_lt hle (by decide)
  · cases h

theorem lt_of_hexDigit? {c : Char} {d : Nat} (h : hexDigit? c = some d) : c.toNat < 128 := by
  have hle : ∀ {last : Char}, c ≤ last → last.toNat < 128 → c.toNat < 128 := fun hc hlast =>
    Nat.lt_of_le_of_lt (Char.le_def.mp hc) hlast
  unfold hexDigit? at h
  split at h
  · next hc => exact hle hc.2 (by decide)
  split at h
  · next hc => exact hle hc.2 (by decide)
  split at h
  · next hc => exact hle hc.2 (by decide)
  · cases h

theorem decimalDigit?_eq_some_iff (c : Char) (d : Nat) :
    decimalDigit? c = some d ↔ WritesDigit 10 c d :=
  digit?_eq_some_iff (fun _ _ => lt_of_decimalDigit?) (by decide) (by decide) c d

theorem hexDigit?_eq_some_iff (c : Char) (d : Nat) :
    hexDigit? c = some d ↔ WritesDigit 16 c d :=
  digit?_eq_some_iff (fun _ _ => lt_of_hexDigit?) (by decide) (by decide) c d

theorem Writes.ne_nil {base : Nat} {s : List Char} {n : Nat} (h : Writes base s n) : s ≠ [] := by
  cases h <;> simp

/-- The digits of a number as a text. -/
theorem writes_toDigits {base : Nat} (hbase : 1 < base) (n : Nat) :
    Writes base (Nat.toDigits base n) n := by
  induction n using Nat.strongRecOn with
  | ind n ih =>
    rw [Nat.toDigits_eq_if hbase]
    split
    · next h => exact .single ⟨h, .inl rfl⟩
    · next h =>
      have hlt : n / base < n := Nat.div_lt_self (by omega) hbase
      have hdigit : WritesDigit base (n % base).digitChar (n % base) :=
        ⟨Nat.mod_lt n (by omega), .inl rfl⟩
      have hmore := (ih (n / base) hlt).more hdigit
      rwa [Nat.div_add_mod'] at hmore

theorem WritesDigit.toUpper {c : Char} {d : Nat} (h : WritesDigit 16 c d) :
    WritesDigit 16 c.toUpper d := by
  have hupper : ∀ d < 16, d.digitChar.toUpper.toUpper = d.digitChar.toUpper := by decide
  obtain ⟨hd, rfl | rfl⟩ := h
  · exact ⟨hd, .inr rfl⟩
  · exact ⟨hd, .inr (hupper d hd)⟩

theorem Writes.toUpper {s : List Char} {n : Nat} (h : Writes 16 s n) :
    Writes 16 (s.map Char.toUpper) n := by
  induction h with
  | single h => exact .single h.toUpper
  | more h hc ih =>
    rw [List.map_append]
    exact ih.more hc.toUpper

theorem parse_of_numeral {s : List Char} {n : Nat} (h : Numeral s n) : parse s = narrow n := by
  cases h with
  | decimal h =>
    unfold parse
    split
    · exact absurd rfl (digit?_ne_none decimalDigit?_eq_some_iff h 'x' (by simp))
    · exact read_of_writes decimalDigit?_eq_some_iff h
  | @hexadecimal s n h =>
    obtain ⟨c, s, rfl⟩ := List.exists_cons_of_ne_nil h.ne_nil
    exact read_of_writes hexDigit?_eq_some_iff h

theorem parse_of_not_numeral {s : List Char} (h : ∀ n, ¬Numeral s n) :
    parse s = .error .invalidDigit := by
  unfold parse
  split
  · exact read_of_not_writes hexDigit?_eq_some_iff fun n hn => h n (.hexadecimal hn)
  · exact read_of_not_writes decimalDigit?_eq_some_iff fun n hn => h n (.decimal hn)

theorem parse_cases (s : List Char) :
    (∃ n, Numeral s n ∧ parse s = narrow n) ∨
      (∀ n, ¬Numeral s n) ∧ parse s = .error .invalidDigit := by
  by_cases h : ∃ n, Numeral s n
  · obtain ⟨n, hn⟩ := h
    exact .inl ⟨n, hn, parse_of_numeral hn⟩
  · exact .inr ⟨not_exists.mp h, parse_of_not_numeral (not_exists.mp h)⟩

theorem parse_eq_ok_iff {s : List Char} {value : UInt64} :
    parse s = .ok value ↔ Numeral s value.toNat := by
  constructor
  · intro h
    rcases parse_cases s with ⟨n, hn, heq⟩ | ⟨_, heq⟩
    · rw [h] at heq
      rwa [narrow_eq_ok_iff.mp heq.symm]
    · rw [h] at heq
      cases heq
  · intro h
    rw [parse_of_numeral h]
    exact narrow_eq_ok_iff.mpr rfl

theorem parse_eq_overflow_iff {s : List Char} :
    parse s = .error .overflow ↔ ∃ n, Numeral s n ∧ UInt64.size ≤ n := by
  constructor
  · intro h
    rcases parse_cases s with ⟨n, hn, heq⟩ | ⟨_, heq⟩
    · rw [h] at heq
      exact ⟨n, hn, narrow_eq_overflow_iff.mp heq.symm⟩
    · rw [h] at heq
      cases heq
  · rintro ⟨n, hn, hsize⟩
    rw [parse_of_numeral hn]
    exact narrow_eq_overflow_iff.mpr hsize

theorem parse_eq_invalidDigit_iff {s : List Char} :
    parse s = .error .invalidDigit ↔ ∀ n, ¬Numeral s n := by
  constructor
  · intro h n hn
    rw [parse_of_numeral hn] at h
    exact narrow_ne_invalidDigit n h
  · exact parse_of_not_numeral

theorem parse_toDigits (value : UInt64) : parse (Nat.toDigits 10 value.toNat) = .ok value :=
  parse_eq_ok_iff.mpr (.decimal (writes_toDigits (by decide) _))

/-- What is read of a text, by the number that it stands for. Whatever the length of a literal and
its leading zeros, only its number counts; a number in decimal or in hexadecimal digits of either
case reads back. -/
theorem parse_exact :
    (∀ s value, parse s = .ok value ↔ Numeral s value.toNat) ∧
      (∀ s, parse s = .error .overflow ↔ ∃ n, Numeral s n ∧ UInt64.size ≤ n) ∧
      (∀ s, parse s = .error .invalidDigit ↔ ∀ n, ¬Numeral s n) ∧
      ∀ value : UInt64,
        parse (Nat.toDigits 10 value.toNat) = .ok value ∧
        parse ('0' :: 'x' :: Nat.toDigits 16 value.toNat) = .ok value ∧
        parse ('0' :: 'x' :: (Nat.toDigits 16 value.toNat).map Char.toUpper) = .ok value := by
  refine ⟨fun _ _ => parse_eq_ok_iff, fun _ => parse_eq_overflow_iff,
    fun _ => parse_eq_invalidDigit_iff, fun value => ?_⟩
  have hlower : Writes 16 (Nat.toDigits 16 value.toNat) value.toNat :=
    writes_toDigits (by decide) _
  refine ⟨parse_toDigits value, ?_, ?_⟩
  · exact parse_eq_ok_iff.mpr (.hexadecimal hlower)
  · exact parse_eq_ok_iff.mpr (.hexadecimal hlower.toUpper)

end ScriptFront.Integer
