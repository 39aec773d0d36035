import Mathlib.Data.Int.ModEq
import StackCode.Machine.Operator

/-!
# Integer arithmetic is arithmetic modulo a power of two

The operators on integers give the number of their kind that is congruent to the exact result.
Division rounds toward zero, so that only the least number divided by `-1` is out of range.
Comparisons are those of the numbers.
-/

namespace StackCode

open Int IntKind

namespace IntKind

variable (k : IntKind) (a b : BitVec k.width) (i : Int)

/-- The number of a bit vector is in the range of the kind and congruent to a given one. -/
def Represents (x : BitVec k.width) (i : Int) : Prop :=
  (k.least ≤ k.toInt x ∧ k.toInt x ≤ k.greatest) ∧ k.toInt x ≡ i [ZMOD 2 ^ k.width]

theorem toInt_mem_range : k.least ≤ k.toInt a ∧ k.toInt a ≤ k.greatest := by
  have hwidth : 0 < k.width := by cases k <;> decide
  have hmin := BitVec.toInt_intMin (w := k.width)
  have hmax := BitVec.toInt_intMax (w := k.width)
  have hlow := a.le_toInt
  have hhigh := a.toInt_lt
  have hnat := a.isLt
  cases k <;> simp [toInt, least, greatest, signed, width] at * <;> omega

theorem ofInt_toInt : BitVec.ofInt k.width (k.toInt a) = a := by
  unfold toInt
  split
  · exact BitVec.ofInt_toInt
  · rw [BitVec.ofInt_natCast, BitVec.ofNat_toNat, BitVec.setWidth_eq]

theorem toInt_injective {a b : BitVec k.width} (h : k.toInt a = k.toInt b) : a = b := by
  rw [← k.ofInt_toInt a, h, ofInt_toInt]

theorem represents_ofInt : k.Represents (BitVec.ofInt k.width i) i := by
  refine ⟨k.toInt_mem_range _, ?_⟩
  unfold toInt
  split
  · rw [BitVec.toInt_ofInt]
    exact_mod_cast bmod_emod
  · have hpositive : ((2 ^ k.width : Nat) : Int) ≠ 0 := by exact_mod_cast (Nat.two_pow_pos _).ne'
    rw [BitVec.toNat_ofInt, toNat_of_nonneg (emod_nonneg _ hpositive)]
    exact_mod_cast mod_modEq i _

/-! ### What results stand for -/

theorem represents_add : k.Represents (a + b) (k.toInt a + k.toInt b) := by
  have h := k.represents_ofInt (k.toInt a + k.toInt b)
  rwa [BitVec.ofInt_add, ofInt_toInt, ofInt_toInt] at h

theorem represents_sub : k.Represents (a - b) (k.toInt a - k.toInt b) := by
  have h := k.represents_ofInt (k.toInt a - k.toInt b)
  rwa [sub_eq_add_neg, BitVec.ofInt_add, BitVec.ofInt_neg, ofInt_toInt, ofInt_toInt,
    ← BitVec.sub_eq_add_neg, ← sub_eq_add_neg] at h

theorem represents_mul : k.Represents (a * b) (k.toInt a * k.toInt b) := by
  have h := k.represents_ofInt (k.toInt a * k.toInt b)
  rwa [BitVec.ofInt_mul, ofInt_toInt, ofInt_toInt] at h

/-- Division is that of the numbers, except that the least number divided by `-1` is out of
range. -/
theorem divide_eq : k.divide a b = BitVec.ofInt k.width ((k.toInt a).tdiv (k.toInt b)) := by
  unfold divide toInt
  split
  · exact BitVec.eq_of_toInt_eq (by rw [BitVec.toInt_sdiv, BitVec.toInt_ofInt])
  · rw [← ofNat_tdiv, BitVec.ofInt_natCast]
    have hlt : a.toNat / b.toNat < 2 ^ k.width := Nat.lt_of_le_of_lt (Nat.div_le_self ..) a.isLt
    exact BitVec.eq_of_toNat_eq ((BitVec.toNat_udiv).trans (Nat.mod_eq_of_lt hlt).symm)

theorem toInt_remainder : k.toInt (k.remainder a b) = (k.toInt a).tmod (k.toInt b) := by
  unfold remainder toInt
  split
  · exact BitVec.toInt_srem a b
  · rw [← ofNat_tmod]
    exact congrArg _ BitVec.toNat_umod

theorem modEq_divide_remainder :
    k.toInt a ≡ k.toInt (k.divide a b) * k.toInt b + k.toInt (k.remainder a b)
      [ZMOD 2 ^ k.width] := by
  have hquotient := (k.represents_ofInt ((k.toInt a).tdiv (k.toInt b))).2
  rw [← divide_eq] at hquotient
  rw [toInt_remainder]
  calc k.toInt a = (k.toInt a).tdiv (k.toInt b) * k.toInt b + (k.toInt a).tmod (k.toInt b) :=
        (tdiv_mul_add_tmod _ _).symm
    _ ≡ _ [ZMOD 2 ^ k.width] := (hquotient.symm.mul_right _).add_right _

/-- The least number divided by `-1` is the least number again. -/
theorem divide_least (ha : k.toInt a = k.least) (hb : k.toInt b = -1) :
    k.divide a b = a ∧ k.remainder a b = 0 := by
  constructor
  · rw [divide_eq, hb, Int.tdiv_neg, Int.tdiv_one, BitVec.ofInt_neg, ofInt_toInt]
    unfold toInt at ha hb
    unfold least at ha
    split at ha
    · rw [BitVec.eq_of_toInt_eq ha, BitVec.neg_intMin]
    · rw [if_neg ‹_›] at hb
      omega
  · refine k.toInt_injective ?_
    rw [toInt_remainder, hb, tmod_neg, tmod_one]
    simp [toInt]

end IntKind

/-- The comparison of numbers without bounds. -/
def CompareOp.holds (op : CompareOp) (x y : Int) : Bool := match op with
  | .eq => x = y
  | .ne => x ≠ y
  | .lt => x < y
  | .le => x ≤ y
  | .gt => x > y
  | .ge => x ≥ y

namespace Value

variable (k : IntKind) (a b : BitVec k.width)

theorem arith_int (op : ArithOp) : arith op (.lit (.int k a)) (.lit (.int k b)) =
    (k.apply op a b).map fun x => .lit (.int k x) := by
  simp [arith]

theorem arith_div_int : arith .div (.lit (.int k a)) (.lit (.int k b)) =
    if b = 0 then .error .divideByZero else .ok (.lit (.int k (k.divide a b))) := by
  rw [arith_int, apply]
  split <;> rfl

theorem arith_rem_int : arith .rem (.lit (.int k a)) (.lit (.int k b)) =
    if b = 0 then .error .divideByZero else .ok (.lit (.int k (k.remainder a b))) := by
  rw [arith_int, apply]
  split <;> rfl

theorem arith_int_cases (op : ArithOp) :
    (∃ x, arith op (.lit (.int k a)) (.lit (.int k b)) = .ok (.lit (.int k x))) ∨
      op ∈ [ArithOp.div, .rem] ∧ b = 0 ∧ arith op (.lit (.int k a))
        (.lit (.int k b)) = .error .divideByZero := by
  cases op with
  | div =>
    rw [arith_div_int]
    by_cases hb : b = 0
    · exact .inr ⟨by simp, hb, if_pos hb⟩
    · exact .inl ⟨_, if_neg hb⟩
  | rem =>
    rw [arith_rem_int]
    by_cases hb : b = 0
    · exact .inr ⟨by simp, hb, if_pos hb⟩
    · exact .inl ⟨_, if_neg hb⟩
  | add | sub | mul | bitAnd | bitOr | bitXor => exact .inl ⟨_, arith_int k a b _⟩

theorem compare_int (op : CompareOp) : compare op (.lit (.int k a)) (.lit (.int k b)) =
    .ok (op.holds (k.toInt a) (k.toInt b)) := by
  have horder : order (.lit (.int k a)) (.lit (.int k b)) =
    .ok (some (Ord.compare (k.toInt a) (k.toInt b))) := by
    simp [order, IntKind.order]
  have hequal : equal (.lit (.int k a)) (.lit (.int k b)) = decide (k.toInt a = k.toInt b) := by
    rw [equal, Literal.equal, beq_eq_decide]
    exact decide_eq_decide.mpr ⟨fun h => by cases h; rfl, fun h => by rw [k.toInt_injective h]⟩
    all_goals simp
  generalize k.toInt a = x at horder hequal
  generalize k.toInt b = y at horder hequal
  cases op with
  | eq => rw [compare, hequal, CompareOp.holds]
  | ne => simp [compare, hequal, CompareOp.holds]
  | lt | le | gt | ge =>
    rw [compare, horder, CompareOp.holds]
    refine congrArg Except.ok ?_
    rcases lt_trichotomy x y with h | rfl | h
    · simp [compare_lt_iff_lt.mpr h]
      omega
    · simp
    · simp [compare_gt_iff_gt.mpr h]
      omega

/-- Sums, differences and products are exact modulo the width. A division by zero is refused, and
any other one rounds toward zero. Negation and complement are a difference and a bitwise sum, and
comparisons are those of the numbers. -/
theorem integer_arithmetic_is_modular :
    (∀ op exact, (op, exact) ∈ [(ArithOp.add, k.toInt a + k.toInt b), (.sub, k.toInt a - k.toInt b),
        (.mul, k.toInt a * k.toInt b)] →
      ∃ x, arith op (.lit (.int k a)) (.lit (.int k b)) = .ok (.lit (.int k x)) ∧
      k.Represents x exact) ∧
    (∀ op ∈ [ArithOp.div, .rem], arith op (.lit (.int k a))
      (.lit (.int k b)) = .error .divideByZero ↔ b = 0) ∧
    (b ≠ 0 → ∃ q m, arith .div (.lit (.int k a)) (.lit (.int k b)) = .ok (.lit (.int k q)) ∧
      arith .rem (.lit (.int k a)) (.lit (.int k b)) = .ok (.lit (.int k m)) ∧
      k.Represents q ((k.toInt a).tdiv (k.toInt b)) ∧ k.toInt m = (k.toInt a).tmod (k.toInt b) ∧
      k.toInt a ≡ k.toInt q * k.toInt b + k.toInt m [ZMOD 2 ^ k.width] ∧
      (k.toInt a = k.least → k.toInt b = -1 → q = a ∧ m = 0)) ∧
    negate (.lit (.int k a)) = (if k.signed || k.native then arith .sub (.lit (.int k 0))
      (.lit (.int k a))
      else .error (.mismatch "signed operand" (.lit (.int k a)))) ∧
    complement (.lit (.int k a)) = arith .bitXor (.lit (.int k a))
      (.lit (.int k (BitVec.allOnes k.width))) ∧
    (∀ op, compare op (.lit (.int k a)) (.lit (.int k b)) =
      .ok (op.holds (k.toInt a) (k.toInt b))) ∧
    ∀ op, (∃ x, arith op (.lit (.int k a)) (.lit (.int k b)) = .ok (.lit (.int k x))) ∨
      op ∈ [ArithOp.div, .rem] ∧ b = 0 := by
  refine ⟨fun op exact hop => ?_, fun op hop => ?_, fun hb => ?_, ?_, ?_, compare_int k a b,
    fun op => ?_⟩
  · simp only [List.mem_cons, Prod.mk.injEq, List.not_mem_nil, or_false] at hop
    rw [arith_int]
    rcases hop with ⟨rfl, rfl⟩ | ⟨rfl, rfl⟩ | ⟨rfl, rfl⟩
    · exact ⟨_, rfl, k.represents_add a b⟩
    · exact ⟨_, rfl, k.represents_sub a b⟩
    · exact ⟨_, rfl, k.represents_mul a b⟩
  · simp only [List.mem_cons, List.not_mem_nil, or_false] at hop
    rcases hop with rfl | rfl
    · simp only [arith_div_int, ite_eq_left_iff, reduceCtorEq, imp_false, not_not]
    · simp only [arith_rem_int, ite_eq_left_iff, reduceCtorEq, imp_false, not_not]
  · refine ⟨_, _, (arith_div_int k a b).trans (if_neg hb), (arith_rem_int k a b).trans (if_neg hb),
      ?_, k.toInt_remainder a b, k.modEq_divide_remainder a b, k.divide_least a b⟩
    rw [k.divide_eq]
    exact k.represents_ofInt _
  · have hneg : 0 - a = -a := BitVec.zero_sub a
    rw [negate, arith_int, apply, hneg]
    rfl
  · rw [complement, arith_int, apply, BitVec.xor_allOnes]
    rfl
  · exact (arith_int_cases k a b op).imp_right fun ⟨hop, hb, _⟩ => ⟨hop, hb⟩

end Value

end StackCode
