import Mosura.Lib.Signed

/-! Two divisions after each other as one, on natural numbers, integers and words of `n` bits. -/

namespace Division

/-- Division by `r` for the product of two divisors, which it is if the product is below `m`: it is
right unless the dividend sees the difference. -/
theorem div_div_eq_iff {m x a b r : ℕ} (hx : x < m) (h0 : r ≠ 0) (hr : a * b < m → r = a * b) :
    x / r = x / a / b ↔ a * b < m ∨ x < r := by
  rw [Nat.div_div_eq_div_mul]
  rcases Nat.lt_or_ge (a * b) m with hlt | hge
  · rw [hr hlt]
    exact iff_of_true rfl (.inl hlt)
  · rw [Nat.div_eq_of_lt (hx.trans_le hge), Nat.div_eq_zero_iff_lt (Nat.pos_of_ne_zero h0)]
    constructor
    · exact .inr
    · rintro (hlt | hlt)
      · omega
      · exact hlt

theorem tdiv_tdiv (x a b : ℤ) : (x.tdiv a).tdiv b = x.tdiv (a * b) := by
  obtain ⟨m, rfl | rfl⟩ := x.eq_nat_or_neg <;> obtain ⟨n, rfl | rfl⟩ := a.eq_nat_or_neg <;>
    obtain ⟨k, rfl | rfl⟩ := b.eq_nat_or_neg
  all_goals
    simp only [Int.neg_tdiv, Int.tdiv_neg, neg_mul, mul_neg, neg_neg, ← Int.ofNat_tdiv,
      ← Int.natCast_mul, Nat.div_div_eq_div_mul]

variable {w : ℕ} {x a b : BitVec w}

/-- The first division does not overflow, nor does the product of the divisors. -/
theorem sdiv_sdiv (h : x ≠ BitVec.intMin w ∨ a ≠ -1) (hmul : (a * b).toInt = a.toInt * b.toInt) :
    x.sdiv (a * b) = (x.sdiv a).sdiv b := by
  apply BitVec.eq_of_toInt_eq
  have hdiv : (x.sdiv a).toInt = x.toInt.tdiv a.toInt := BitVec.toInt_sdiv_of_ne_or_ne x a h
  rw [BitVec.toInt_sdiv, BitVec.toInt_sdiv, hdiv, hmul, tdiv_tdiv]

theorem natAbs_toInt_intMin (hw : 0 < w) : (BitVec.intMin w).toInt = -(2 ^ (w - 1) : ℕ) := by
  rw [BitVec.toInt_intMin_of_pos hw]
  push_cast
  rfl

/-- The first division overflows: the answers differ in sign. -/
theorem sdiv_neg_one_sdiv_iff (hw : 1 < w) (h0 : b ≠ 0) (hsmall : b.toInt.natAbs < 2 ^ (w - 2)) :
    (BitVec.intMin w).sdiv (-1 * b) = ((BitVec.intMin w).sdiv (-1)).sdiv b ↔
      b.toInt.natAbs = 1 := by
  have hself : (BitVec.intMin w).sdiv (-1) = BitVec.intMin w := BitVec.intMin_sdiv_neg_one
  have hhalf : (2 : ℕ) ^ (w - 1) = 2 * 2 ^ (w - 2) := by
    rw [← pow_succ']
    congr 1
    omega
  have hpow : (2 : ℕ) ^ w = 2 * 2 ^ (w - 1) := Signed.two_pow_half (by omega)
  have hneg : (-1 * b).toInt = -b.toInt := by
    rw [neg_one_mul, BitVec.toInt_neg]
    exact Int.bmod_eq_of_le_mul_two (by omega) (by omega)
  have hb0 : b.toInt ≠ 0 := fun h => h0 (BitVec.eq_of_toInt_eq (h.trans BitVec.toInt_zero.symm))
  rw [hself, ← BitVec.toInt_inj, BitVec.toInt_sdiv, BitVec.toInt_sdiv, hneg, Int.tdiv_neg,
    natAbs_toInt_intMin (by omega), Int.neg_tdiv, neg_neg]
  constructor
  · intro h
    by_contra hne
    -- the quotient is between 2 and a half of the range, so its sign shows
    have hq : ((2 ^ (w - 1) : ℕ) : ℤ).tdiv b.toInt ≠ 0 := by
      rw [Ne, ← Int.natAbs_eq_zero, Int.natAbs_tdiv, Int.natAbs_natCast]
      change ¬2 ^ (w - 1) / b.toInt.natAbs = 0
      rw [Nat.div_eq_zero_iff]
      omega
    have hle : (((2 ^ (w - 1) : ℕ) : ℤ).tdiv b.toInt).natAbs ≤ 2 ^ (w - 2) := by
      rw [Int.natAbs_tdiv, Int.natAbs_natCast, hhalf]
      apply Nat.div_le_of_le_mul
      exact Nat.mul_le_mul_right _ (by omega)
    generalize ((2 ^ (w - 1) : ℕ) : ℤ).tdiv b.toInt = q at *
    rw [Int.bmod_eq_of_le_mul_two (by omega) (by omega),
      Int.bmod_eq_of_le_mul_two (by omega) (by omega)] at h
    omega
  · intro h
    have hq : ((2 ^ (w - 1) : ℕ) : ℤ).tdiv b.toInt = 2 ^ (w - 1) ∨
        ((2 ^ (w - 1) : ℕ) : ℤ).tdiv b.toInt = -2 ^ (w - 1) := by
      obtain h1 | h1 := Int.natAbs_eq_iff.mp h
      · rw [h1]
        simp
      · rw [h1]
        simp
    have hmod : ((2 : ℤ) ^ (w - 1)).bmod (2 ^ w) = (-2 ^ (w - 1) : ℤ).bmod (2 ^ w) := by
      rw [Int.bmod_eq_bmod_iff_bmod_sub_eq_zero]
      have htwo : (2 : ℤ) ^ (w - 1) - -2 ^ (w - 1) = ((2 ^ w : ℕ) : ℤ) := by
        rw [hpow]
        push_cast
        ring
      rw [htwo, Int.bmod_self]
    obtain hq | hq := hq
    · rw [hq, hmod]
    · rw [hq, neg_neg, hmod]

theorem toInt_neg_one (hw : 0 < w) : (-1 : BitVec w).toInt = -1 := by
  change (-1#w).toInt = -1
  rw [BitVec.neg_one_eq_allOnes, BitVec.toInt_allOnes, if_pos hw]

/-- The smallest number divided by -1 is the only case that goes wrong, unless the second divisor is
1 or -1. -/
theorem sdiv_sdiv_iff (hw : 1 < w) (hb : b ≠ 0)
    (hsmall : a.toInt.natAbs * b.toInt.natAbs < 2 ^ (w - 2)) :
    x.sdiv (a * b) = (x.sdiv a).sdiv b ↔ ¬(x = BitVec.intMin w ∧ a = -1 ∧ b ≠ 1 ∧ b ≠ -1) := by
  have hunit : b.toInt.natAbs = 1 ↔ b = 1 ∨ b = -1 := by
    have hone : (1 : BitVec w).toInt = 1 := BitVec.toInt_one hw
    have hneg : (-1 : BitVec w).toInt = -1 := toInt_neg_one (by omega)
    rw [← BitVec.toInt_inj, ← BitVec.toInt_inj, hone, hneg]
    omega
  by_cases hover : x = BitVec.intMin w ∧ a = -1
  · obtain ⟨rfl, rfl⟩ := hover
    have hneg : (-1 : BitVec w).toInt = -1 := toInt_neg_one (by omega)
    rw [hneg] at hsmall
    rw [sdiv_neg_one_sdiv_iff hw hb (by simpa using hsmall), hunit]
    tauto
  · refine iff_of_true (sdiv_sdiv (not_and_or.mp hover) ?_) fun hbad => hover ⟨hbad.1, hbad.2.1⟩
    have hpow : (2 : ℕ) ^ w = 4 * 2 ^ (w - 2) := by
      rw [show (4 : ℕ) = 2 ^ 2 from rfl, ← pow_add]
      congr 1
      omega
    have habs : (a.toInt * b.toInt).natAbs < 2 ^ (w - 2) := by rwa [Int.natAbs_mul]
    rw [BitVec.toInt_mul]
    exact Int.bmod_eq_of_le_mul_two (by omega) (by omega)

end Division
