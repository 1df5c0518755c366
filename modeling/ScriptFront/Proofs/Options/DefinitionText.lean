import ScriptFront.Options
import ScriptFront.Proofs.Number.Numeral
import ScriptFront.Proofs.Text.Boundary
import ScriptFront.Proofs.Token.Parts

/-! The text of an option that defines a name: the name, an equals sign and an integer. Main
statement: the integers of 64 bits are read as they are written, in decimal or in hexadecimal
digits, all but the least one; this one is refused together with all integers that have more bits.
-/
namespace ScriptFront

namespace Integer

/-- The integer that a numeral stands for, with a minus sign before it or not. -/
inductive SignedNumeral : List Char → Int → Prop
  | plain {s : List Char} {n : Nat} (h : Numeral s n) : SignedNumeral s n
  | minus {s : List Char} {n : Nat} (h : Numeral s n) : SignedNumeral ('-' :: s) (-n)

/-- The digits of a size with the sign of an integer. -/
def withSign (n : Int) (digits : List Char) : List Char := if n < 0 then '-' :: digits else digits

theorem signedNumeral_withSign {n : Int} {digits : List Char} (h : Numeral digits n.natAbs) :
    SignedNumeral (withSign n digits) n := by
  unfold withSign
  split
  · next hneg =>
    have hn : n = -(n.natAbs : Int) := by omega
    rw [hn]
    exact .minus h
  · next hpos =>
    have hn : n = (n.natAbs : Int) := by omega
    have hplain := SignedNumeral.plain h
    rwa [← hn] at hplain

theorem toList_toString (n : Int) :
    (toString n).toList = withSign n (Nat.toDigits 10 n.natAbs) := by
  have hnat (k : Nat) : (toString k).toList = Nat.toDigits 10 k := by
    rw [Nat.toString_eq_ofList_toDigits, String.toList_ofList]
  cases n with
  | ofNat k => exact hnat k
  | negSucc k =>
    have htext : toString (Int.negSucc k) = "-" ++ toString (k + 1) := rfl
    have hneg : withSign (Int.negSucc k) (Nat.toDigits 10 (k + 1)) =
        '-' :: Nat.toDigits 10 (k + 1) := if_pos (Int.negSucc_lt_zero k)
    rw [htext, String.toList_append, hnat, Int.natAbs_negSucc, Nat.succ_eq_add_one, hneg]
    simp

/-! Which characters numerals have. -/

theorem Numeral.eq_x_or_hexDigit? {s : List Char} {n : Nat} (h : Numeral s n) {c : Char}
    (hc : c ∈ s) : c = 'x' ∨ ∃ d, hexDigit? c = some d := by
  cases h with
  | decimal h =>
    have hsome := digit?_ne_none decimalDigit?_eq_some_iff h c hc
    obtain ⟨d, hd⟩ := Option.ne_none_iff_exists'.mp hsome
    obtain ⟨hlt, hchar⟩ := (decimalDigit?_eq_some_iff c d).mp hd
    have hdigit : WritesDigit 16 c d := ⟨by omega, hchar⟩
    exact .inr ⟨d, (hexDigit?_eq_some_iff c d).mpr hdigit⟩
  | @hexadecimal s n h =>
    rcases List.mem_cons.mp hc with rfl | hc
    · exact .inr ⟨0, rfl⟩
    rcases List.mem_cons.mp hc with rfl | hc
    · exact .inl rfl
    · have hsome := digit?_ne_none hexDigit?_eq_some_iff h c hc
      exact .inr (Option.ne_none_iff_exists'.mp hsome)

theorem SignedNumeral.not_isSpace {s : List Char} {n : Int} (h : SignedNumeral s n) :
    ∀ c ∈ s, Text.isSpace c = false := by
  have hdigits {s : List Char} {n : Nat} (h : Numeral s n) : ∀ c ∈ s, Text.isSpace c = false := by
    intro c hc
    rcases h.eq_x_or_hexDigit? hc with rfl | ⟨d, hd⟩
    · rfl
    · obtain ⟨hlt, hchar⟩ := (hexDigit?_eq_some_iff c d).mp hd
      have hall : ∀ d < 16, Text.isSpace d.digitChar = false ∧
          Text.isSpace d.digitChar.toUpper = false := by decide
      rcases hchar with rfl | rfl
      · exact (hall d hlt).1
      · exact (hall d hlt).2
  cases h with
  | plain h => exact hdigits h
  | minus h => exact List.forall_mem_cons.mpr ⟨rfl, hdigits h⟩

end Integer

namespace Text

theorem trim_of_not_isSpace {s : List Char} (h : ∀ c ∈ s, isSpace c = false) : trim s = s := by
  have hstart : trimStart s = s := by
    rcases s with _ | ⟨c, s⟩
    · rfl
    · exact List.dropWhile_cons_of_neg (by simp [h c List.mem_cons_self])
  have hend : trimEnd s = s := by
    have hback : s.reverse.dropWhile isSpace = s.reverse := by
      rcases hs : s.reverse with _ | ⟨c, t⟩
      · rfl
      · have hc : c ∈ s := List.mem_reverse.mp (hs ▸ List.mem_cons_self)
        exact List.dropWhile_cons_of_neg (by simp [h c hc])
    rw [trimEnd, hback, List.reverse_reverse]
  rw [trim, hstart, hend]

end Text

namespace Options

open Integer (SignedNumeral withSign)

/-- An integer of 64 bits whose size has 63. -/
def fit? (n : Int) : Option Int64 :=
  if 2 * n.natAbs < UInt64.size then some (.ofInt n) else none

theorem fit?_toInt (v : Int64) : fit? v.toInt = if v = Int64.minValue then none else some v := by
  have hsize : UInt64.size = 18446744073709551616 := rfl
  have hle : -9223372036854775808 ≤ v.toInt := v.le_toInt
  have hlt : v.toInt < 9223372036854775808 := v.toInt_lt
  have hleast : v = Int64.minValue ↔ v.toInt = -9223372036854775808 := Int64.toInt_inj.symm
  unfold fit?
  by_cases h : v = Int64.minValue
  · have hv := hleast.mp h
    rw [if_pos h, if_neg (by omega)]
  · have hv := mt hleast.mpr h
    rw [if_neg h, if_pos (by omega), Int64.ofInt_toInt]

theorem fit?_eq_none {n : Int} (h : n < Int64.minValue.toInt ∨ Int64.maxValue.toInt < n) :
    fit? n = none := by
  have hsize : UInt64.size = 18446744073709551616 := rfl
  have hleast : Int64.minValue.toInt = -9223372036854775808 := rfl
  have hgreatest : Int64.maxValue.toInt = 9223372036854775807 := rfl
  exact if_neg (by omega)

/-- What becomes of the size of an integer that is read. -/
def ofSize (negative : Bool) : Except NumberError UInt64 → Option Int64
  | .error _ => none
  | .ok n =>
    if 2 * n.toNat < UInt64.size then
      some (.ofInt (if negative then -(n.toNat : Int) else n.toNat))
    else none

theorem number?_minus (s : List Char) : number? ('-' :: s) = ofSize true (Integer.parse s) := by
  unfold number?
  cases h : Integer.parse s <;> simp only [h, ofSize]

theorem number?_of_head_ne {s : List Char} (h : ∀ t, s ≠ '-' :: t) :
    number? s = ofSize false (Integer.parse s) := by
  unfold number?
  cases hs : Integer.parse s <;> simp [hs, ofSize]

theorem ofSize_narrow (negative : Bool) (n : Nat) :
    ofSize negative (Integer.narrow n) = fit? (if negative then -(n : Int) else n) := by
  have habs : (if negative then -(n : Int) else n).natAbs = n := by split <;> omega
  unfold Integer.narrow Integer.narrow? fit?
  rw [habs]
  by_cases hn : n < UInt64.size
  · simp only [if_pos hn, Option.elim_some, ofSize, UInt64.toNat_ofNat_of_lt' hn]
  · have hlarge : ¬2 * n < UInt64.size := by omega
    simp only [if_neg hn, if_neg hlarge, Option.elim_none, ofSize]

/-- The number of a value text is read if its size has 63 bits. -/
theorem number?_of_signedNumeral {s : List Char} {n : Int} (h : SignedNumeral s n) :
    number? s = fit? n := by
  cases h with
  | @minus s n h =>
    rw [number?_minus, Integer.parse_of_numeral h]
    exact ofSize_narrow true n
  | @plain s n h =>
    have hhead : ∀ t, s ≠ '-' :: t := by
      rintro t rfl
      rcases h.eq_x_or_hexDigit? List.mem_cons_self with hc | ⟨d, hd⟩
      · cases hc
      · cases hd
    rw [number?_of_head_ne hhead, Integer.parse_of_numeral h]
    exact ofSize_narrow false n

/-! Names. -/

/-- A letter or an underscore, and then letters, digits and underscores, all of them in ASCII. -/
def IsSymbol : List Char → Prop
  | [] => False
  | c :: s => (c.isAlpha = true ∨ c = '_') ∧ ∀ d ∈ s, d.isAlphanum = true ∨ d = '_'

instance : DecidablePred IsSymbol
  | [] => isFalse id
  | c :: s =>
    @instDecidableAnd (c.isAlpha = true ∨ c = '_') _ inferInstance (List.decidableBAll _ s)

namespace IsSymbol

variable {name : List Char}

theorem forall_mem (h : IsSymbol name) : ∀ c ∈ name, (c.isAlphanum || c == '_') = true := by
  have hrest {c : Char} (hc : c.isAlphanum = true ∨ c = '_') :
      (c.isAlphanum || c == '_') = true := by
    simpa using hc
  rcases name with _ | ⟨c, s⟩
  · cases h
  · have hfirst : c.isAlphanum = true ∨ c = '_' := by
      rcases h.1 with hc | hc
      · exact .inl (by simp [Char.isAlphanum, hc])
      · exact .inr hc
    exact List.forall_mem_cons.mpr ⟨hrest hfirst, fun d hd => hrest (h.2 d hd)⟩

theorem isName (h : IsSymbol name) : Options.isName name = true := by
  have hall := List.all_eq_true.mpr h.forall_mem
  rcases name with _ | ⟨c, s⟩
  · cases h
  · have hdigit : c.isDigit = false := by
      rcases h.1 with hc | rfl
      · exact Bool.eq_false_iff.mpr (Lexeme.not_isDigit_of_isLetter hc)
      · rfl
    rw [Options.isName, hall]
    simp [hdigit]

theorem ne_of_mem (h : IsSymbol name) {c : Char} (hc : c ∈ name) :
    Text.isSpace c = false ∧ c ≠ '=' := by
  have hchar := h.forall_mem c hc
  have hascii : c.toNat < 128 := by
    apply CharClass.toNat_lt_of_isIdentifier
    rw [CharClass.isIdentifier, hchar, Bool.true_or]
  have hall : ∀ n < 128, ((Char.ofNat n).isAlphanum || Char.ofNat n == '_') = true →
      Text.isSpace (Char.ofNat n) = false ∧ Char.ofNat n ≠ '=' := by decide
  have hself := hall c.toNat hascii
  rw [Char.ofNat_toNat] at hself
  exact hself hchar

end IsSymbol

/-- A definition is read if its value is. -/
theorem definition_assign {name value : List Char} (hname : IsSymbol name) {n : Int}
    (hvalue : SignedNumeral value n) :
    let text := String.ofList (name ++ '=' :: value)
    definition text = (fit? n).elim (.error (.invalidDefinition text))
      fun v => .ok (String.ofList name, v) := by
  intro text
  have hbefore : ∀ c ∈ name, (c != '=') = true := fun c hc => bne_iff_ne.mpr (hname.ne_of_mem hc).2
  have htake : (name ++ '=' :: value).takeWhile (· != '=') = name := by
    rw [List.takeWhile_append_of_pos hbefore]
    simp
  have hdrop : (name ++ '=' :: value).dropWhile (· != '=') = '=' :: value := by
    rw [List.dropWhile_append_of_pos hbefore]
    simp
  have htrim : Text.trim name = name :=
    Text.trim_of_not_isSpace fun c hc => (hname.ne_of_mem hc).1
  have htrim' : Text.trim value = value := Text.trim_of_not_isSpace hvalue.not_isSpace
  have hread : number? (Text.trim value) = fit? n := by rw [htrim', number?_of_signedNumeral hvalue]
  simp only [definition, text, String.toList_ofList, htake, hdrop, htrim, hread, hname.isName]
  cases fit? n <;> rfl

/-- The value of a definition is the integer that its text stands for, if this has 64 bits and is
not the least integer that has. All other integers are refused, and none is wrapped. Each integer
of 64 bits is written in decimal digits and in hexadecimal digits of either case, after a minus
sign where it is negative. -/
theorem definition_signed {name : List Char} (hname : IsSymbol name) :
    let text (value : List Char) := String.ofList (name ++ '=' :: value)
    (∀ (v : Int64) value, SignedNumeral value v.toInt →
      definition (text value) =
        if v = Int64.minValue then .error (.invalidDefinition (text value))
        else .ok (String.ofList name, v)) ∧
    (∀ value n, SignedNumeral value n → n < Int64.minValue.toInt ∨ Int64.maxValue.toInt < n →
      definition (text value) = .error (.invalidDefinition (text value))) ∧
    ∀ v : Int64, SignedNumeral (toString v).toList v.toInt ∧
      SignedNumeral (withSign v.toInt ('0' :: 'x' :: Nat.toDigits 16 v.toInt.natAbs)) v.toInt ∧
      SignedNumeral
        (withSign v.toInt ('0' :: 'x' :: (Nat.toDigits 16 v.toInt.natAbs).map Char.toUpper))
        v.toInt := by
  intro text
  refine ⟨fun v value hvalue => ?_, fun value n hvalue hn => ?_, fun v => ?_⟩
  · have hread := definition_assign hname hvalue
    rw [fit?_toInt] at hread
    by_cases hv : v = Int64.minValue
    · rw [if_pos hv] at hread ⊢
      exact hread
    · rw [if_neg hv] at hread ⊢
      exact hread
  · have hread := definition_assign hname hvalue
    rwa [fit?_eq_none hn] at hread
  · have hdecimal : Integer.Numeral (Nat.toDigits 10 v.toInt.natAbs) v.toInt.natAbs :=
      .decimal (Integer.writes_toDigits (by decide) _)
    have hlower : Integer.Writes 16 (Nat.toDigits 16 v.toInt.natAbs) v.toInt.natAbs :=
      Integer.writes_toDigits (by decide) _
    have htext : (toString v).toList = withSign v.toInt (Nat.toDigits 10 v.toInt.natAbs) :=
      Integer.toList_toString v.toInt
    rw [htext]
    refine ⟨?_, ?_, ?_⟩
    · exact Integer.signedNumeral_withSign hdecimal
    · exact Integer.signedNumeral_withSign (.hexadecimal hlower)
    · exact Integer.signedNumeral_withSign (.hexadecimal hlower.toUpper)

theorem definition_signed_mask :
    let least : Int64 := -9223372036854775807
    IsSymbol "_mask1".toList ∧ SignedNumeral "-0x7FfFfFfFfFfFfFfF".toList least.toInt ∧
      definition "_mask1=-0x7FfFfFfFfFfFfFfF" = .ok ("_mask1", least) ∧
      SignedNumeral "9223372036854775808".toList 9223372036854775808 ∧
      definition "_mask1=9223372036854775808" =
        .error (.invalidDefinition "_mask1=9223372036854775808") := by
  intro least
  have hname : IsSymbol "_mask1".toList := by decide
  have hsize : Integer.parse "0x7FfFfFfFfFfFfFfF".toList = .ok 9223372036854775807 := by
    decide +kernel
  have hleast : SignedNumeral "-0x7FfFfFfFfFfFfFfF".toList least.toInt :=
    .minus (Integer.parse_eq_ok_iff.mp hsize)
  have hsize' : Integer.parse "9223372036854775808".toList = .ok 9223372036854775808 := by
    decide +kernel
  have hlarge : SignedNumeral "9223372036854775808".toList 9223372036854775808 :=
    .plain (Integer.parse_eq_ok_iff.mp hsize')
  obtain ⟨hread, hrefused, -⟩ := definition_signed hname
  exact ⟨hname, hleast, hread least _ hleast, hlarge, hrefused _ _ hlarge (.inr (by decide))⟩

/-- The least integer is refused, because its size alone has more bits than an integer has for it.
-/
theorem definition_least :
    let text := "X=" ++ toString Int64.minValue
    text = "X=-9223372036854775808" ∧ definition text = .error (.invalidDefinition text) := by
  decide +kernel

end Options
end ScriptFront
