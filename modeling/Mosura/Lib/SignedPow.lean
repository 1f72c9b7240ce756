import Mosura.Lib.Signed

/-! Signed division by powers of two, as shifts and masks compute it: quotient and remainder are
rounded to 0. -/

namespace SignedPow
open Signed

/-- What is added to a negative number before its low `k` bits are cut off. -/
def bias (n k a : ℕ) : ℕ := if 2 * a < 2 ^ n then 0 else 2 ^ k - 1

variable {n k a : ℕ}

theorem bias_lt (n k a : ℕ) : bias n k a < 2 ^ k := by
  have hpos : 0 < 2 ^ k := Nat.two_pow_pos k
  unfold bias
  split_ifs
  · exact hpos
  · exact Nat.sub_lt hpos Nat.one_pos

/-- Two biases of `k` bits are equal where the signs are, or there are no bits. -/
theorem bias_eq_iff {m b : ℕ} :
    bias m k b = bias n k a ↔ k = 0 ∨ (2 ^ m ≤ 2 * b ↔ 2 ^ n ≤ 2 * a) := by
  have hone : 2 ^ k - 1 = 0 ↔ k = 0 := by
    constructor
    · intro h
      by_contra hk
      have : 2 ^ 1 ≤ 2 ^ k := Nat.pow_le_pow_right two_pos (Nat.pos_of_ne_zero hk)
      omega
    · rintro rfl
      rfl
  unfold bias
  split_ifs with hb ha ha
  · exact iff_of_true rfl (.inr (iff_of_false (not_le.mpr hb) (not_le.mpr ha)))
  · rw [eq_comm, hone]
    exact (or_iff_left fun h => absurd (h.mpr (not_lt.mp ha)) (not_le.mpr hb)).symm
  · rw [hone]
    exact (or_iff_left fun h => absurd (h.mp (not_lt.mp hb)) (not_le.mpr ha)).symm
  · exact iff_of_true rfl (.inr (iff_of_true (not_lt.mp hb) (not_lt.mp ha)))

/-- The sign, repeated in all bits. -/
theorem fill_eq (h0 : 0 < n) (ha : a < 2 ^ n) :
    ((BitVec.ofNat n a).sshiftRight (n - 1)).toNat = bias n n a := by
  have hhalf := two_pow_half h0
  rw [sshiftRight_ofNat h0 ha]
  unfold bias
  split_ifs with hneg
  · rw [Nat.shiftRight_eq_div_pow]
    exact Nat.div_eq_of_lt (by omega)
  · rw [Nat.shiftRight_eq_div_pow, Nat.div_eq_of_lt (by omega), Nat.sub_zero]

/-- The low bits of the sign. -/
theorem fill_shiftRight (hk : k ≤ n) : bias n n a >>> (n - k) = bias n k a := by
  unfold bias
  split_ifs
  · exact Nat.zero_shiftRight _
  · apply Nat.eq_of_testBit_eq
    intro i
    rw [Nat.testBit_shiftRight, Nat.testBit_two_pow_sub_one, Nat.testBit_two_pow_sub_one]
    exact decide_eq_decide.mpr (by omega)

/-- The remainder: the low bits of the biased number, less the bias. -/
theorem tmod_eq (hk : k ≤ n) (ha : a < 2 ^ n) : (toInt n a).tmod (2 ^ k : ℕ) =
    (((a + bias n k a) % 2 ^ n % 2 ^ k : ℕ) : ℤ) - bias n k a := by
  rw [Nat.mod_mod_of_dvd _ (Nat.pow_dvd_pow 2 hk)]
  obtain ⟨m, hm⟩ := Nat.pow_dvd_pow 2 hk
  have hpos : 0 < 2 ^ k := Nat.two_pow_pos k
  unfold toInt bias
  split_ifs with hneg
  · rw [Nat.add_zero, Nat.cast_zero, sub_zero]
    exact (Int.ofNat_tmod a (2 ^ k)).symm
  · rw [show (a : ℤ) - (2 ^ n : ℕ) = -((2 ^ n - a : ℕ) : ℤ) by omega, Int.neg_tmod,
      ← Int.ofNat_tmod]
    have hdiv := Nat.div_add_mod (2 ^ n - a) (2 ^ k)
    have hlt := Nat.mod_lt (2 ^ n - a) hpos
    have hle : (2 ^ n - a) / 2 ^ k ≤ m := Nat.div_le_of_le_mul (by omega)
    generalize (2 ^ n - a) / 2 ^ k = q at *
    generalize (2 ^ n - a) % 2 ^ k = r at *
    generalize 2 ^ k = p at *
    -- the number is `m - q` blocks less the remainder of its magnitude
    have hsum : a + (p - 1) = p - 1 - r + p * (m - q) := by
      rw [Nat.mul_sub]
      have := Nat.mul_le_mul_left p hle
      omega
    rw [hsum, Nat.add_mul_mod_self_left, Nat.mod_eq_of_lt (by omega)]
    omega

/-- A word and the signed number it is agree modulo `2 ^ n`. -/
theorem cast_toNat (x : BitVec n) : (x.toNat : ZMod (2 ^ n)) = (x.toInt : ℤ) := by
  rw [BitVec.toInt_eq_toNat_cond]
  split_ifs
  · rw [Int.cast_natCast]
  · rw [Int.cast_sub, Int.cast_natCast, Int.cast_natCast, ZMod.natCast_self, sub_zero]

/-- The sign in all bits is the negative of the sign in one bit. -/
theorem cast_fill : ((bias n n a : ℕ) : ZMod (2 ^ n)) = -(bias n 1 a : ℕ) := by
  have hpos : 1 ≤ 2 ^ n := Nat.two_pow_pos n
  unfold bias
  split_ifs
  · rw [Nat.cast_zero, neg_zero]
  · rw [Nat.cast_sub hpos, ZMod.natCast_self, Nat.cast_one, zero_sub]
    norm_num

/-- A mask without the low `k` bits. -/
theorem and_high (hk : k ≤ n) (ha : a < 2 ^ n) : a &&& (2 ^ n - 2 ^ k) = a - a % 2 ^ k := by
  obtain ⟨m, rfl⟩ := Nat.exists_eq_add_of_le hk
  have hmask : 2 ^ (k + m) - 2 ^ k = 2 ^ k * (2 ^ m - 1) := by
    rw [Nat.mul_sub, pow_add, Nat.mul_one]
  have hhigh : a - a % 2 ^ k = 2 ^ k * (a / 2 ^ k) := by
    have := Nat.div_add_mod a (2 ^ k)
    omega
  rw [hmask, hhigh]
  apply Nat.eq_of_testBit_eq
  intro i
  rw [Nat.testBit_and, Nat.testBit_two_pow_mul, Nat.testBit_two_pow_mul,
    Nat.testBit_two_pow_sub_one, Nat.testBit_div_two_pow]
  by_cases hi : k ≤ i
  · rw [decide_eq_true hi, Bool.true_and, Bool.true_and, Nat.sub_add_cancel hi]
    by_cases hlt : i - k < m
    · rw [decide_eq_true hlt, Bool.and_true]
    · rw [Nat.testBit_lt_two_pow (ha.trans_le (Nat.pow_le_pow_right two_pos (by omega)))]
      rfl
  · rw [decide_eq_false hi, Bool.false_and, Bool.false_and, Bool.and_false]

/-- The power as a signed number: the highest one is the smallest number. -/
theorem toInt_two_pow (hk : k < n) :
    toInt n (2 ^ k) = (2 ^ k : ℕ) ∨ k = n - 1 ∧ toInt n (2 ^ k) = -(2 ^ k : ℕ) := by
  have hhalf := two_pow_half (show 0 < n by omega)
  by_cases hlast : k = n - 1
  · subst hlast
    refine .inr ⟨rfl, ?_⟩
    rw [toInt_of_ge (by omega)]
    omega
  · have hlt : 2 ^ k < 2 ^ (n - 1) := Nat.pow_lt_pow_right (by norm_num) (by omega)
    exact .inl (toInt_of_lt (by omega))

theorem cast_srem (hk : k < n) (ha : a < 2 ^ n) :
    (((BitVec.ofNat n a).srem (BitVec.ofNat n (2 ^ k))).toNat : ZMod (2 ^ n)) =
      ((toInt n a).tmod (2 ^ k : ℕ) : ℤ) := by
  have hpow : 2 ^ k < 2 ^ n := Nat.pow_lt_pow_right (by norm_num) hk
  rw [cast_toNat, BitVec.toInt_srem, toInt_ofNat ha, toInt_ofNat hpow]
  rcases toInt_two_pow hk with h | ⟨-, h⟩
  · rw [h]
  · rw [h, Int.tmod_neg]

/-- The quotient times the divisor is the number less the remainder. -/
theorem cast_sdiv_mul (x y : BitVec n) :
    ((x.sdiv y).toNat : ZMod (2 ^ n)) * y.toNat = x.toNat - (x.srem y).toNat := by
  have hbmod (z : ℤ) : ((z.bmod (2 ^ n) : ℤ) : ZMod (2 ^ n)) = z := by
    rw [ZMod.intCast_eq_intCast_iff]
    exact Int.bmod_emod
  have hself : x.toInt.tdiv y.toInt * y.toInt = x.toInt - x.toInt.tmod y.toInt :=
    Int.tdiv_mul_self _ _
  have hcast := congrArg ((Int.cast : ℤ → ZMod (2 ^ n))) hself
  rw [Int.cast_sub, Int.cast_mul] at hcast
  rw [cast_toNat, cast_toNat, cast_toNat, cast_toNat, BitVec.toInt_sdiv, BitVec.toInt_srem, hbmod,
    hcast]

/-- Half a number, rounded to 0, is its half rounded down once a negative one is one larger. -/
theorem sdiv_two (hn : 2 < n) (ha : a < 2 ^ n) :
    (BitVec.ofNat n a).sdiv (BitVec.ofNat n 2) =
      (BitVec.ofNat n ((a + bias n 1 a) % 2 ^ n)).sshiftRight 1 := by
  have hhalf := two_pow_half (show 0 < n by omega)
  have hfour : 4 ≤ 2 ^ (n - 1) := by
    calc 4 = 2 ^ 2 := rfl
      _ ≤ 2 ^ (n - 1) := Nat.pow_le_pow_right two_pos (by omega)
  have htwo : toInt n 2 = 2 := toInt_of_lt (by omega)
  apply BitVec.eq_of_toInt_eq
  rw [BitVec.toInt_sdiv, BitVec.toInt_sshiftRight, toInt_ofNat ha, toInt_ofNat (by omega), htwo,
    toInt_ofNat (Nat.mod_lt _ (Nat.two_pow_pos n)), Int.shiftRight_eq_div_pow]
  unfold bias
  split_ifs with hneg
  · rw [Nat.add_zero, Nat.mod_eq_of_lt ha, toInt_of_lt hneg,
      Int.tdiv_eq_ediv_of_nonneg (Int.natCast_nonneg a)]
    exact Int.bmod_eq_of_le (by omega) (by omega)
  · rw [toInt_of_ge (by omega), show (a : ℤ) - (2 ^ n : ℕ) = -((2 ^ n - a : ℕ) : ℤ) by omega,
      Int.neg_tdiv, Int.tdiv_eq_ediv_of_nonneg (Int.natCast_nonneg _)]
    rw [Int.bmod_eq_of_le (by omega) (by omega)]
    by_cases hlast : a + (2 ^ 1 - 1) = 2 ^ n
    · -- `-1` is rounded to 0
      rw [hlast, Nat.mod_self, toInt_of_lt (by omega)]
      omega
    · rw [Nat.mod_eq_of_lt (by omega), toInt_of_ge (by omega)]
      omega

end SignedPow
