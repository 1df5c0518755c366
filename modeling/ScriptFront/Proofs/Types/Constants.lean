import ScriptFront.Proofs.Types.Casts
import Mathlib.Data.Int.Basic

/-! Casts of integer constants. Main statement: a cast keeps the value modulo the width of its target,
so that a wider type on the way to another one, or back, changes nothing. -/
namespace ScriptFront

namespace IntWidth

theorem bits_le (w : IntWidth) : w.bits ≤ 64 := by cases w <;> decide

/-- The bits of a value that a type of the width has. -/
def low (w : IntWidth) (v : UInt64) : BitVec w.bits := v.toBitVec.setWidth w.bits

/-- The integer that these bits stand for. -/
def value (signed : Bool) (w : IntWidth) (v : UInt64) : Int :=
  if signed then (w.low v).toInt else (w.low v).toNat

end IntWidth

/-! Integers modulo a power of two. -/

theorem ofInt_toInt_of_le {m n : Nat} (h : n ≤ m) (x : BitVec m) :
    BitVec.ofInt n x.toInt = x.setWidth n := by
  apply BitVec.eq_of_toInt_eq
  rw [BitVec.toInt_ofInt, BitVec.toInt_setWidth, BitVec.toInt_eq_toNat_bmod,
    Int.bmod_bmod_of_dvd (Nat.pow_dvd_pow 2 h)]

theorem ofInt_toNat_eq {m n : Nat} (x : BitVec m) : BitVec.ofInt n x.toNat = x.setWidth n := by
  apply BitVec.eq_of_toInt_eq
  rw [BitVec.toInt_ofInt, BitVec.toInt_setWidth]

theorem setWidth_ofInt_of_le {m n : Nat} (h : n ≤ m) (i : Int) :
    (BitVec.ofInt m i).setWidth n = BitVec.ofInt n i := by
  apply BitVec.eq_of_toInt_eq
  rw [← ofInt_toInt_of_le h, BitVec.toInt_ofInt, BitVec.toInt_ofInt, BitVec.toInt_ofInt,
    Int.bmod_bmod_of_dvd (Nat.pow_dvd_pow 2 h)]

theorem toBitVec_ofInt (i : Int) : (UInt64.ofInt i).toBitVec = BitVec.ofInt 64 i := by
  apply BitVec.eq_of_toNat_eq
  rw [BitVec.toNat_ofInt]
  exact Nat.mod_eq_of_lt (by omega)

theorem toNat_ofInt_of_lt {n : Nat} (h : n < 2 ^ 64) : (UInt64.ofInt n).toNat = n := by
  rw [← UInt64.toNat_toBitVec, toBitVec_ofInt, BitVec.ofInt_natCast, BitVec.toNat_ofNat,
    Nat.mod_eq_of_lt h]

/-! Extensions. -/

theorem toNat_zeroExtend (v : UInt64) (w : IntWidth) :
    (zeroExtend v w.bits).toNat = v.toNat % 2 ^ w.bits := by
  have hmask (n : Nat) (m : UInt64) (hm : m.toNat = 2 ^ n - 1) :
      (v &&& m).toNat = v.toNat % 2 ^ n := by
    rw [UInt64.toNat_and, hm, Nat.and_two_pow_sub_one_eq_mod]
  cases w with
  | w8 => exact hmask 8 _ rfl
  | w16 => exact hmask 16 _ rfl
  | w32 => exact hmask 32 _ rfl
  | w64 => exact (Nat.mod_eq_of_lt v.toNat_lt).symm

theorem zeroExtend_eq (v : UInt64) (w : IntWidth) :
    zeroExtend v w.bits = .ofInt (w.value false v) := by
  have hlow : (w.low v).toNat = v.toNat % 2 ^ w.bits := BitVec.toNat_setWidth ..
  have hlt : (w.low v).toNat < 2 ^ 64 :=
    (w.low v).isLt.trans_le (Nat.pow_le_pow_right Nat.two_pos w.bits_le)
  apply UInt64.toNat_inj.mp
  rw [toNat_zeroExtend, ← hlow, IntWidth.value, if_neg Bool.false_ne_true, toNat_ofInt_of_lt hlt]

/-- A shift up and back repeats the highest of the low bits. -/
theorem sshiftRight_shiftLeft {n : Nat} (hpos : 0 < n) (hle : n ≤ 64) (x : BitVec 64) :
    (x <<< (64 - n)).sshiftRight (64 - n) = (x.setWidth n).signExtend 64 := by
  apply BitVec.eq_of_getLsbD_eq
  intro i hi
  rw [BitVec.getLsbD_signExtend, BitVec.getLsbD_sshiftRight, BitVec.getLsbD_setWidth,
    BitVec.msb_eq_getLsbD_last, BitVec.getLsbD_shiftLeft, BitVec.msb_eq_getLsbD_last,
    BitVec.getLsbD_shiftLeft, BitVec.getLsbD_setWidth]
  by_cases hlow : i < n
  · have hbit : 64 - n + i < 64 := by omega
    have hback : 64 - n + i - (64 - n) = i := by omega
    simp [hi, hlow, hbit, hback]
  · have hbit : ¬64 - n + i < 64 := by omega
    have hlast : 63 - (64 - n) = n - 1 := by omega
    have hshift : ¬63 < 64 - n := by omega
    have hhigh : n - 1 < n := by omega
    simp [hi, hlow, hbit, hlast, hshift, hhigh]

theorem signExtend_eq (v : UInt64) (w : IntWidth) :
    signExtend v w.bits = .ofInt (w.value true v) := by
  have hshifts : (signExtend v w.bits).toBitVec =
      (v.toBitVec <<< (64 - w.bits)).sshiftRight (64 - w.bits) := by cases w <;> rfl
  have hpos : 0 < w.bits := by cases w <;> decide
  apply UInt64.toBitVec_inj.mp
  rw [hshifts, sshiftRight_shiftLeft hpos w.bits_le, toBitVec_ofInt, IntWidth.value, if_pos rfl,
    IntWidth.low, BitVec.signExtend]

/-- The low bits of an integer in 64 bits. -/
theorem low_ofInt (w : IntWidth) (i : Int) : w.low (.ofInt i) = BitVec.ofInt w.bits i := by
  rw [IntWidth.low, toBitVec_ofInt, setWidth_ofInt_of_le w.bits_le]

/-- Bits that are right modulo a width are right modulo a narrower one. -/
theorem low_of_le {w w' : IntWidth} (h : w'.bits ≤ w.bits) {v : UInt64} {i : Int}
    (hv : w.low v = BitVec.ofInt w.bits i) : w'.low v = BitVec.ofInt w'.bits i := by
  have hlow : (w.low v).setWidth w'.bits = w'.low v := BitVec.setWidth_setWidth_of_le _ h
  rw [← hlow, hv, setWidth_ofInt_of_le h]

/-- Fewer bits do not tell the signs apart. -/
theorem ofInt_value {w w' : IntWidth} (h : w'.bits ≤ w.bits) (signed : Bool) (v : UInt64) :
    BitVec.ofInt w'.bits (w.value signed v) = w'.low v := by
  have hlow : (w.low v).setWidth w'.bits = w'.low v := BitVec.setWidth_setWidth_of_le _ h
  rw [← hlow, IntWidth.value]
  split_ifs
  · exact ofInt_toInt_of_le h _
  · exact ofInt_toNat_eq _

namespace Conversion

/-- What the table of conversions and that of their operations come to. -/
theorem convert_betweenInts (signed : Bool) (w w' : IntWidth) (v : UInt64) :
    (betweenInts signed w w').convert v =
      if w = w' then v
      else if w.bits < w'.bits then if signed then signExtend v w.bits else zeroExtend v w.bits
      else zeroExtend v w'.bits := by
  cases signed <;> cases w <;> cases w' <;> rfl

theorem low_convert (signed : Bool) (w w' : IntWidth) (v : UInt64) :
    w'.low ((betweenInts signed w w').convert v) = BitVec.ofInt w'.bits (w.value signed v) := by
  rw [convert_betweenInts]
  split_ifs with hsame hwider hsigned
  · subst hsame
    exact (ofInt_value le_rfl signed v).symm
  · rw [signExtend_eq, low_ofInt, hsigned]
  · rw [zeroExtend_eq, low_ofInt, Bool.eq_false_of_not_eq_true hsigned]
  · rw [zeroExtend_eq, low_ofInt, ofInt_value le_rfl, ofInt_value (not_lt.mp hwider)]

end Conversion

namespace CastRules

variable {hash : NameHash} {r : CastRules hash} {a b : TypeId} {signed signed' : Bool}
  {w w' : IntWidth}

/-- The types of integers with their signs and widths. A literal is a signed one of 64 bits. -/
def integerTargets : List (TypeId × Bool × IntWidth) :=
  [(.u8, false, .w8), (.u16, false, .w16), (.u32, false, .w32), (.u64, false, .w64),
   (.s8, true, .w8), (.s16, true, .w16), (.s32, true, .w32), (.s64, true, .w64),
   (.constInt, true, .w64)]

/-- What is cast may also be a string, which is an unsigned integer of 64 bits. -/
def integerSources : List (TypeId × Bool × IntWidth) := (.string, false, .w64) :: integerTargets

theorem mem_integerSources (h : (b, signed, w) ∈ integerTargets) :
    (b, signed, w) ∈ integerSources := List.mem_cons_of_mem _ h

theorem mem_integerTargets (h : (a, signed, w) ∈ integerSources) (hwider : w.bits < w'.bits) :
    (a, signed, w) ∈ integerTargets := by
  rcases List.mem_cons.mp h with heq | h
  · cases heq
    exact absurd hwider (not_lt.mpr w'.bits_le)
  · exact h

theorem exists_source (r : CastRules hash) (h : (a, signed, w) ∈ integerSources) :
    ∃ t, r.types.get? (sourceType a) = some t ∧ t.isNumber = true ∧
      Conversion.decided t.base = .integer signed w := by
  have hall : ∀ x ∈ integerSources, (sourceType x.1).isPredefined = true ∧
      ∃ t ∈ DataType.predefined,
        DataType.predefined[DataType.predefinedIndex (sourceType x.1)]? = some t ∧
          t.isNumber = true ∧ Conversion.decided t.base = .integer x.2.1 x.2.2 := by decide
  obtain ⟨hpredefined, t, -, ht, hinteger⟩ := hall _ h
  exact ⟨t, by rw [Catalogue.get?, if_pos hpredefined, ht], hinteger⟩

theorem target_eq (h : (b, signed, w) ∈ integerTargets) :
    r.targetType b = sourceType b ∧ b ≠ .any := by
  have hall : ∀ x ∈ integerTargets, x.1 ≠ .string ∧ x.1 ≠ .any := by decide
  obtain ⟨hstring, hany⟩ := hall _ h
  rw [targetType_of_ne hstring, sourceType_of_ne hstring]
  exact ⟨rfl, hany⟩

/-- Integers are cast as their signs and widths ask for. -/
theorem castConstant_integers (v : UInt64) (ha : (a, signed, w) ∈ integerSources)
    (hb : (b, signed', w') ∈ integerTargets) :
    r.castConstant v a b = .ok ((Conversion.betweenInts signed w w').convert v) := by
  obtain ⟨t, ht, htnumber, htbase⟩ := r.exists_source ha
  obtain ⟨u, hu, hunumber, hubase⟩ := r.exists_source (mem_integerSources hb)
  obtain ⟨htarget, hany⟩ := target_eq (r := r) hb
  rw [← htarget] at hu
  have halike (h : sourceType a = r.targetType b) :
      (Conversion.betweenInts signed w w').convert v = v := by
    rw [h, hu] at ht
    cases ht
    rw [htbase] at hubase
    cases hubase
    rw [Conversion.convert_betweenInts, if_pos rfl]
  have hresolves := r.cast_resolves a b true
  rw [castConstant]
  generalize r.cast a b true = k at hresolves
  cases hresolves with
  | same h => rw [halike (by rw [h, htarget])]
  | alike _ h => rw [halike h]
  | boxed _ _ h => exact absurd h hany
  | converted _ _ _ hfound h =>
    obtain ⟨rfl, rfl⟩ := Between.unique ⟨ht, hu⟩ hfound
    obtain ⟨priority, hcast, -⟩ := between_of_converts h
    have hbetween : Conversion.between? t.base u.base =
        some (Conversion.betweenInts signed w w') := by
      rw [Conversion.between?, htbase, hubase]
    rw [hcast, Cast.ofBases, hbetween]
    cases Conversion.betweenInts signed w w' <;> rfl
  | invalid _ _ _ h =>
    exact absurd ⟨htnumber, hunumber, fun _ _ => rfl⟩ (h t u ⟨ht, hu⟩)

/-- The target has the bits of the integer that the source stands for. -/
theorem exists_castConstant (r : CastRules hash) (v : UInt64) (ha : (a, signed, w) ∈ integerSources)
    (hb : (b, signed', w') ∈ integerTargets) :
    ∃ x, r.castConstant v a b = .ok x ∧ w'.low x = BitVec.ofInt w'.bits (w.value signed v) :=
  ⟨_, castConstant_integers v ha hb, Conversion.low_convert signed w w' v⟩

/-- A narrower target has these bits and no others. -/
theorem exists_castConstant_narrow (r : CastRules hash) (v : UInt64)
    (ha : (a, signed, w) ∈ integerSources) (hb : (b, signed', w') ∈ integerTargets)
    (hnarrow : w'.bits < w.bits) :
    ∃ x, r.castConstant v a b = .ok x ∧ x.toNat = (w'.low v).toNat := by
  refine ⟨_, castConstant_integers v ha hb, ?_⟩
  have hwidth : w ≠ w' := fun h => hnarrow.ne (h ▸ rfl)
  have hlt : (w'.low v).toNat < 2 ^ 64 :=
    (w'.low v).isLt.trans_le (Nat.pow_le_pow_right Nat.two_pos w'.bits_le)
  rw [Conversion.convert_betweenInts, if_neg hwidth, if_neg hnarrow.not_gt, zeroExtend_eq,
    IntWidth.value, if_neg Bool.false_ne_true, toNat_ofInt_of_lt hlt]

/-- A wider type on the way back changes nothing. -/
theorem exists_castConstant_back (r : CastRules hash) (v : UInt64)
    (ha : (a, signed, w) ∈ integerSources) (hb : (b, signed', w') ∈ integerTargets)
    (hwider : w.bits < w'.bits) :
    ∃ x y, r.castConstant v a b = .ok x ∧ r.castConstant x b a = .ok y ∧
      y.toNat = (w.low v).toNat := by
  obtain ⟨x, hx, hlow⟩ := r.exists_castConstant v ha hb
  obtain ⟨y, hy, hback⟩ := r.exists_castConstant_narrow x (mem_integerSources hb)
    (mem_integerTargets ha hwider) hwider
  refine ⟨x, y, hx, hy, ?_⟩
  rw [hback, low_of_le hwider.le hlow, ofInt_value le_rfl]

/-- A type on the way that is as wide as the target changes nothing. -/
theorem exists_castConstant_through (r : CastRules hash) (v : UInt64) {c : TypeId}
    {signed'' : Bool} {w'' : IntWidth} (ha : (a, signed, w) ∈ integerSources)
    (hb : (b, signed', w') ∈ integerTargets) (hc : (c, signed'', w'') ∈ integerTargets)
    (hle : w''.bits ≤ w'.bits) :
    ∃ x y z, r.castConstant v a b = .ok x ∧ r.castConstant x b c = .ok y ∧
      r.castConstant v a c = .ok z ∧ w''.low y = w''.low z := by
  obtain ⟨x, hx, hlow⟩ := r.exists_castConstant v ha hb
  obtain ⟨y, hy, hthrough⟩ := r.exists_castConstant x (mem_integerSources hb) hc
  obtain ⟨z, hz, hdirect⟩ := r.exists_castConstant v ha hc
  refine ⟨x, y, z, hx, hy, hz, ?_⟩
  rw [hthrough, hdirect, ofInt_value hle, low_of_le hle hlow]

/-- Between types of integers every constant can be cast, and the result has the bits that the integer
has modulo the width of the target. So a constant comes back from a wider type as it was, and on the
way to a type it may go through any other that is as wide. -/
theorem castConstant_modulo (r : CastRules hash) (v : UInt64) :
    (∀ a signed w b signed' w', (a, signed, w) ∈ integerSources →
      (b, signed', w') ∈ integerTargets →
        ∃ x, r.castConstant v a b = .ok x ∧ w'.low x = BitVec.ofInt w'.bits (w.value signed v)) ∧
    (∀ a signed w b signed' w', (a, signed, w) ∈ integerSources →
      (b, signed', w') ∈ integerTargets → w.bits < w'.bits →
        ∃ x y, r.castConstant v a b = .ok x ∧ r.castConstant x b a = .ok y ∧
          y.toNat = (w.low v).toNat) ∧
    ∀ a signed w b signed' w' c signed'' w'', (a, signed, w) ∈ integerSources →
      (b, signed', w') ∈ integerTargets → (c, signed'', w'') ∈ integerTargets →
      w''.bits ≤ w'.bits →
        ∃ x y z, r.castConstant v a b = .ok x ∧ r.castConstant x b c = .ok y ∧
          r.castConstant v a c = .ok z ∧ w''.low y = w''.low z :=
  ⟨fun _ _ _ _ _ _ => r.exists_castConstant v, fun _ _ _ _ _ _ => r.exists_castConstant_back v,
    fun _ _ _ _ _ _ _ _ _ => r.exists_castConstant_through v⟩

/-- The bits above those of the source play no part, and its sign is kept in the bits of the target. -/
theorem castConstant_modulo_negative :
    let r : CastRules fun _ => 0 := ⟨.new, stringCastLevel⟩
    let v : UInt64 := 0x1234567890abcd80
    IntWidth.w8.value true v = -128 ∧
      (∃ x, r.castConstant v .s8 .u32 = .ok x ∧ IntWidth.w32.low x = BitVec.ofInt 32 (-128)) ∧
      (∃ x y, r.castConstant v .s8 .u32 = .ok x ∧ r.castConstant x .u32 .s8 = .ok y ∧
        y.toNat = 0x80) ∧
      ∃ x y z, r.castConstant v .string .u32 = .ok x ∧ r.castConstant x .u32 .s16 = .ok y ∧
        r.castConstant v .string .s16 = .ok z ∧ IntWidth.w16.low y = IntWidth.w16.low z := by
  intro r v
  have hvalue : IntWidth.w8.value true v = -128 := by decide
  have hlow : (IntWidth.w8.low v).toNat = 0x80 := by decide
  obtain ⟨hcast, hback, hthrough⟩ := castConstant_modulo r v
  have hcast := hcast .s8 true .w8 .u32 false .w32 (by decide) (by decide)
  have hback := hback .s8 true .w8 .u32 false .w32 (by decide) (by decide) (by decide)
  have hthrough := hthrough .string false .w64 .u32 false .w32 .s16 true .w16 (by decide)
    (by decide) (by decide) (by decide)
  rw [hvalue] at hcast
  rw [hlow] at hback
  exact ⟨hvalue, hcast, hback, hthrough⟩

end CastRules
end ScriptFront
