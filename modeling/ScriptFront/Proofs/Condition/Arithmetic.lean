import ScriptFront.Proofs.Condition.Expression

/-! The operators of conditions compute what they mean for integers, wrapped to 64 bits. -/
namespace ScriptFront.Condition

theorem ofInt_truth {b : Bool} {p : Prop} [Decidable p] (h : b = true ↔ p) :
    Int64.ofInt (truth p) = ofBool b := by
  by_cases hp : p
  · rw [truth, if_pos hp, h.mpr hp]
    rfl
  · rw [truth, if_neg hp, Bool.eq_false_iff.mpr fun hb => hp (h.mp hb)]
    rfl

theorem toInt_eq_zero {a : Int64} : a.toInt = 0 ↔ a = 0 := by
  rw [← Int64.toInt_inj, Int64.toInt_zero]

theorem ofInt_toNat (n : UInt64) : Int64.ofInt n.toNat = n.toInt64 := by
  apply Int64.toBitVec_inj.mp
  simp

theorem ofInt_tdiv_toInt (a b : Int64) : Int64.ofInt (a.toInt.tdiv b.toInt) = a / b := by
  rw [Int64.ofInt_tdiv a.minValue_le_toInt a.toInt_le b.minValue_le_toInt b.toInt_le,
    Int64.ofInt_toInt, Int64.ofInt_toInt]

theorem ofInt_tmod_toInt (a b : Int64) : Int64.ofInt (a.toInt.tmod b.toInt) = a % b := by
  rw [← Int64.toInt_mod, Int64.ofInt_toInt]

/-- The bits of a shift count that are kept are the count modulo 64. -/
theorem toNat_shiftCount (b : Int64) :
    ((b &&& 63).toBitVec.smod 64).toNat = (b.toInt % 64).toNat := by
  have hmask : (b &&& 63).toBitVec.toNat = b.toBitVec.toNat % 64 := by
    rw [Int64.toBitVec_and, BitVec.toNat_and]
    exact Nat.and_two_pow_sub_one_eq_mod _ 6
  have hmsb : (b &&& 63).toBitVec.msb = false := by
    rw [BitVec.msb_eq_decide, hmask, decide_eq_false_iff_not]
    omega
  have hsmod : (b &&& 63).toBitVec.smod 64 = (b &&& 63).toBitVec.umod 64 := by
    rw [BitVec.smod_eq, hmsb]
    rfl
  have hint := BitVec.toInt_eq_toNat_cond b.toBitVec
  rw [Int64.toInt_toBitVec] at hint
  have hlt := b.toBitVec.isLt
  calc ((b &&& 63).toBitVec.smod 64).toNat
      = (b &&& 63).toBitVec.toNat % 64 := by rw [hsmod]; rfl
    _ = b.toBitVec.toNat % 64 := by rw [hmask, Nat.mod_mod]
    _ = (b.toInt % 64).toNat := by split at hint <;> omega

theorem ofInt_shiftLeft (a b : Int64) :
    Int64.ofInt (a.toInt * 2 ^ (b.toInt % 64).toNat) = a <<< (b &&& 63) := by
  apply Int64.toBitVec_inj.mp
  rw [Int64.toBitVec_shiftLeft, BitVec.shiftLeft_eq', toNat_shiftCount,
    BitVec.shiftLeft_eq_mul_twoPow, Int64.toBitVec_ofInt, BitVec.ofInt_mul,
    ← Int64.toInt_toBitVec, BitVec.ofInt_toInt]
  congr 1
  apply BitVec.eq_of_toNat_eq
  rw [BitVec.toNat_ofInt, BitVec.toNat_twoPow]
  norm_cast

theorem ofInt_shiftRight (a b : Int64) :
    Int64.ofInt (a.toInt / 2 ^ (b.toInt % 64).toNat) = a >>> (b &&& 63) := by
  have hint : (a >>> (b &&& 63)).toInt = a.toInt / 2 ^ (b.toInt % 64).toNat := by
    rw [← Int64.toInt_toBitVec, Int64.toBitVec_shiftRight, BitVec.sshiftRight_eq',
      BitVec.toInt_sshiftRight, toNat_shiftCount, Int.shiftRight_eq_div_pow, Int64.toInt_toBitVec]
    norm_cast
  rw [← hint, Int64.ofInt_toInt]

theorem ofInt_bits {a b c : Int64} {f : BitVec 64 → BitVec 64 → BitVec 64}
    (h : c.toBitVec = f a.toBitVec b.toBitVec) :
    Int64.ofInt (f (BitVec.ofInt 64 a.toInt) (BitVec.ofInt 64 b.toInt)).toInt = c := by
  apply Int64.toBitVec_inj.mp
  rw [Int64.toBitVec_ofInt, BitVec.ofInt_toInt, ← Int64.toInt_toBitVec, ← Int64.toInt_toBitVec,
    BitVec.ofInt_toInt, BitVec.ofInt_toInt, h]

theorem map_quotient {b q : Int64} {z : Int} (h : Int64.ofInt z = q) :
    (if b.toInt = 0 then none else some z).map Int64.ofInt = if b = 0 then none else some q := by
  by_cases hb : b = 0
  · rw [if_pos hb, if_pos (toInt_eq_zero.mpr hb)]
    rfl
  · rw [if_neg hb, if_neg (mt toInt_eq_zero.mp hb), ← h]
    rfl

theorem unary?_of_mem {op : Operator} (h : op ∈ prefixOperators) :
    ∃ f, unary? op = some f ∧ ∀ a, Int64.ofInt (prefixMeaning op a.toInt) = f a := by
  simp only [prefixOperators, List.mem_cons, List.not_mem_nil, or_false] at h
  rcases h with rfl | rfl | rfl | rfl
  all_goals refine ⟨_, rfl, fun a => ?_⟩
  · exact ofInt_truth (by rw [beq_iff_eq, toInt_eq_zero])
  · rw [Int64.not_eq_neg_sub]
    simp [prefixMeaning]
  · simp [prefixMeaning]
  · simp [prefixMeaning]

theorem unary?_of_notMem {op : Operator} (h : op ∉ prefixOperators) : unary? op = none := by
  cases op <;> first | rfl | exact absurd (by decide) h

theorem binary?_of_mem {op : Operator} (h : op ∈ binaryOperators) :
    ∃ f, binary? op = some f ∧
      ∀ a b, (meaning? op a.toInt b.toInt).map Int64.ofInt = f a b := by
  cases op with
  | mul => exact ⟨_, rfl, fun a b => by simp [meaning?]⟩
  | div => exact ⟨_, rfl, fun a b => map_quotient (ofInt_tdiv_toInt a b)⟩
  | mod => exact ⟨_, rfl, fun a b => map_quotient (ofInt_tmod_toInt a b)⟩
  | add => exact ⟨_, rfl, fun a b => by simp [meaning?]⟩
  | sub => exact ⟨_, rfl, fun a b => by simp [meaning?]⟩
  | shl => exact ⟨_, rfl, fun a b => congrArg some (ofInt_shiftLeft a b)⟩
  | shr => exact ⟨_, rfl, fun a b => congrArg some (ofInt_shiftRight a b)⟩
  | lt =>
    refine ⟨_, rfl, fun a b => congrArg some (ofInt_truth ?_)⟩
    rw [decide_eq_true_iff, Int64.lt_iff_toInt_lt]
  | le =>
    refine ⟨_, rfl, fun a b => congrArg some (ofInt_truth ?_)⟩
    rw [decide_eq_true_iff, Int64.le_iff_toInt_le]
  | gt =>
    refine ⟨_, rfl, fun a b => congrArg some (ofInt_truth ?_)⟩
    rw [decide_eq_true_iff, Int64.lt_iff_toInt_lt]
  | ge =>
    refine ⟨_, rfl, fun a b => congrArg some (ofInt_truth ?_)⟩
    rw [decide_eq_true_iff, Int64.le_iff_toInt_le]
  | eq =>
    refine ⟨_, rfl, fun a b => congrArg some (ofInt_truth ?_)⟩
    rw [beq_iff_eq, Int64.toInt_inj]
  | ne =>
    refine ⟨_, rfl, fun a b => congrArg some (ofInt_truth ?_)⟩
    rw [bne_iff_ne, ne_eq, ne_eq, Int64.toInt_inj]
  | bitAnd => exact ⟨_, rfl, fun a b => congrArg some (ofInt_bits (Int64.toBitVec_and a b))⟩
  | bitXor => exact ⟨_, rfl, fun a b => congrArg some (ofInt_bits (Int64.toBitVec_xor a b))⟩
  | bitOr => exact ⟨_, rfl, fun a b => congrArg some (ofInt_bits (Int64.toBitVec_or a b))⟩
  | logicalAnd =>
    refine ⟨_, rfl, fun a b => congrArg some (ofInt_truth ?_)⟩
    simp [toInt_eq_zero]
  | logicalOr =>
    refine ⟨_, rfl, fun a b => congrArg some (ofInt_truth ?_)⟩
    simp [toInt_eq_zero]
  | assign | assignAdd | assignSub | assignMul | assignDiv | assignMod | assignShl | assignShr
  | assignAnd | assignOr | assignXor | not | bitNot | decrement | increment | question | colon
  | semicolon | comma | parenLeft | parenRight | bracketLeft | bracketRight =>
    exact absurd h (by decide)

theorem binary?_of_notMem {op : Operator} (h : op ∉ binaryOperators) : binary? op = none := by
  cases op <;> first | rfl | exact absurd (by decide) h

end ScriptFront.Condition
