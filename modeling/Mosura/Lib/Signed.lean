import Mathlib

/-! Natural numbers read as two's complement numbers of `n` bits. -/

namespace Signed

/-- `a < 2 ^ n` read as a two's complement number. -/
def toInt (n a : ℕ) : ℤ := if 2 * a < 2 ^ n then a else a - (2 ^ n : ℕ)

variable {n a b x : ℕ}

theorem toInt_ofNat (ha : a < 2 ^ n) : (BitVec.ofNat n a).toInt = toInt n a := by
  unfold toInt
  rw [BitVec.toInt_eq_toNat_cond, BitVec.toNat_ofNat, Nat.mod_eq_of_lt ha]

theorem slt_ofNat (ha : a < 2 ^ n) (hb : b < 2 ^ n) :
    (BitVec.ofNat n a).slt (BitVec.ofNat n b) = decide (toInt n a < toInt n b) := by
  rw [BitVec.slt, toInt_ofNat ha, toInt_ofNat hb]

theorem sle_ofNat (ha : a < 2 ^ n) (hb : b < 2 ^ n) :
    (BitVec.ofNat n a).sle (BitVec.ofNat n b) = decide (toInt n a ≤ toInt n b) := by
  rw [BitVec.sle, toInt_ofNat ha, toInt_ofNat hb]

/-- The range is split in two halves of `2 ^ (n - 1)` numbers. -/
theorem two_pow_half (h0 : 0 < n) : 2 ^ n = 2 * 2 ^ (n - 1) := by
  rw [← pow_succ']
  congr 1
  omega

theorem saddOverflow_ofNat (ha : a < 2 ^ n) (hb : b < 2 ^ n) :
    BitVec.saddOverflow (BitVec.ofNat n a) (BitVec.ofNat n b) =
      (decide (((2 ^ (n - 1) : ℕ) : ℤ) ≤ toInt n a + toInt n b) ||
        decide (toInt n a + toInt n b < -((2 ^ (n - 1) : ℕ) : ℤ))) := by
  rw [BitVec.saddOverflow, toInt_ofNat ha, toInt_ofNat hb]
  push_cast
  rfl

theorem ssubOverflow_ofNat (ha : a < 2 ^ n) (hb : b < 2 ^ n) :
    BitVec.ssubOverflow (BitVec.ofNat n a) (BitVec.ofNat n b) =
      (decide (((2 ^ (n - 1) : ℕ) : ℤ) ≤ toInt n a - toInt n b) ||
        decide (toInt n a - toInt n b < -((2 ^ (n - 1) : ℕ) : ℤ))) := by
  rw [BitVec.ssubOverflow, toInt_ofNat ha, toInt_ofNat hb]
  push_cast
  rfl

/-- Below the sign bit both readings agree. -/
theorem toInt_of_lt (h : 2 * a < 2 ^ n) : toInt n a = a := if_pos h

theorem toInt_of_ge (h : 2 ^ n ≤ 2 * a) : toInt n a = a - (2 ^ n : ℕ) := if_neg (not_lt.mpr h)

theorem toInt_zero : toInt n 0 = 0 := toInt_of_lt (by simp)

theorem toInt_bounds (h0 : 0 < n) (ha : a < 2 ^ n) :
    -((2 ^ (n - 1) : ℕ) : ℤ) ≤ toInt n a ∧ toInt n a < ((2 ^ (n - 1) : ℕ) : ℤ) := by
  have hhalf := two_pow_half h0
  unfold toInt
  split_ifs <;> omega

theorem toInt_inj (ha : a < 2 ^ n) (hb : b < 2 ^ n) : toInt n a = toInt n b ↔ a = b := by
  unfold toInt
  split_ifs <;> omega

theorem toInt_neg_iff (ha : a < 2 ^ n) : toInt n a < 0 ↔ 2 ^ n ≤ 2 * a := by
  unfold toInt
  generalize 2 ^ n = m at *
  split_ifs <;> omega

/-! The sign of a wrapped difference or sum against its overflow. -/

/-- The difference `x = a - b` wraps where it overflows: its sign is the order of `a` and `b` there
the wrong way round, and only there. -/
theorem sub_overflow_iff (h0 : 0 < n) (ha : a < 2 ^ n) (hb : b < 2 ^ n) (hx : x < 2 ^ n)
    (hsub : (x + b) % 2 ^ n = a) :
    (¬((((2 ^ (n - 1) : ℕ) : ℤ) ≤ toInt n a - toInt n b ∨
        toInt n a - toInt n b < -((2 ^ (n - 1) : ℕ) : ℤ)) ↔ toInt n x < 0) ↔
      toInt n a < toInt n b) ∧
    (¬((((2 ^ (n - 1) : ℕ) : ℤ) ≤ toInt n a - toInt n b ∨
        toInt n a - toInt n b < -((2 ^ (n - 1) : ℕ) : ℤ)) ↔ 0 < toInt n x) ↔
      toInt n b < toInt n a) := by
  have hcase : x + b = a ∨ x + b = a + 2 ^ n := by
    rcases Nat.lt_or_ge (x + b) (2 ^ n) with hlt | hge
    · rw [Nat.mod_eq_of_lt hlt] at hsub
      exact .inl hsub
    · rw [Nat.mod_eq_sub_mod hge, Nat.mod_eq_of_lt (by omega)] at hsub
      exact .inr (by omega)
  have hhalf := two_pow_half h0
  unfold toInt
  generalize 2 ^ (n - 1) = h at *
  generalize 2 ^ n = m at *
  subst hhalf
  split_ifs <;> constructor <;> omega

/-- The sum `x = a + c` against the negative `d` of `c`: the same, but for the smallest number, which
is its own negative. -/
theorem add_overflow_iff {c d : ℕ} (h0 : 0 < n) (ha : a < 2 ^ n) (hc : c < 2 ^ n) (hx : x < 2 ^ n)
    (hsum : (a + c) % 2 ^ n = x) (hneg : (2 ^ n - c) % 2 ^ n = d) :
    ((¬((((2 ^ (n - 1) : ℕ) : ℤ) ≤ toInt n a + toInt n c ∨
        toInt n a + toInt n c < -((2 ^ (n - 1) : ℕ) : ℤ)) ↔ toInt n x < 0) ↔
      toInt n a < toInt n d) ↔ c ≠ 2 ^ (n - 1)) ∧
    ((¬((((2 ^ (n - 1) : ℕ) : ℤ) ≤ toInt n a + toInt n c ∨
        toInt n a + toInt n c < -((2 ^ (n - 1) : ℕ) : ℤ)) ↔ 0 < toInt n x) ↔
      toInt n d < toInt n a) ↔ c ≠ 2 ^ (n - 1)) := by
  have hcase : a + c = x ∨ a + c = x + 2 ^ n := by
    rcases Nat.lt_or_ge (a + c) (2 ^ n) with hlt | hge
    · rw [Nat.mod_eq_of_lt hlt] at hsum
      exact .inl hsum
    · rw [Nat.mod_eq_sub_mod hge, Nat.mod_eq_of_lt (by omega)] at hsum
      exact .inr (by omega)
  have hd : c = 0 ∧ d = 0 ∨ 0 < c ∧ c + d = 2 ^ n := by
    rcases Nat.eq_zero_or_pos c with rfl | hpos
    · rw [Nat.sub_zero, Nat.mod_self] at hneg
      exact .inl ⟨rfl, hneg.symm⟩
    · rw [Nat.mod_eq_of_lt (by omega)] at hneg
      exact .inr ⟨hpos, by omega⟩
  have hhalf := two_pow_half h0
  have hpos : 0 < 2 ^ (n - 1) := Nat.two_pow_pos _
  unfold toInt
  generalize 2 ^ (n - 1) = h at *
  generalize 2 ^ n = m at *
  subst hhalf
  split_ifs <;> constructor <;> omega

/-! Sign extension and arithmetic shifts. -/

/-- The number that `a` is in `n` bits, written in `m` bits. -/
def sext (n m a : ℕ) : ℕ := if 2 * a < 2 ^ n then a else a + (2 ^ m - 2 ^ n)

variable {m k : ℕ}

theorem msb_ofNat (h0 : 0 < n) (ha : a < 2 ^ n) :
    (BitVec.ofNat n a).msb = true ↔ ¬2 * a < 2 ^ n := by
  have hhalf := two_pow_half h0
  rw [BitVec.msb_eq_decide, BitVec.toNat_ofNat, Nat.mod_eq_of_lt ha, decide_eq_true_eq]
  omega

theorem signExtend_ofNat (h0 : 0 < n) (hnm : n ≤ m) (ha : a < 2 ^ n) :
    ((BitVec.ofNat n a).signExtend m).toNat = sext n m a := by
  have hle : 2 ^ n ≤ 2 ^ m := Nat.pow_le_pow_right two_pos hnm
  rw [BitVec.toNat_signExtend, BitVec.toNat_setWidth, BitVec.toNat_ofNat, Nat.mod_eq_of_lt ha,
    Nat.mod_eq_of_lt (ha.trans_le hle), sext]
  by_cases h : 2 * a < 2 ^ n
  · rw [if_pos h, if_neg ((msb_ofNat h0 ha).not.mpr (not_not.mpr h)), Nat.add_zero]
  · rw [if_neg h, if_pos ((msb_ofNat h0 ha).mpr h)]

theorem sext_lt (hnm : n ≤ m) (ha : a < 2 ^ n) : sext n m a < 2 ^ m := by
  have hle : 2 ^ n ≤ 2 ^ m := Nat.pow_le_pow_right two_pos hnm
  unfold sext
  split_ifs <;> omega

theorem sext_mod (hnm : n ≤ m) (ha : a < 2 ^ n) : sext n m a % 2 ^ n = a := by
  have hd : 2 ^ n ∣ 2 ^ m - 2 ^ n := Nat.dvd_sub (Nat.pow_dvd_pow 2 hnm) dvd_rfl
  unfold sext
  split_ifs
  · exact Nat.mod_eq_of_lt ha
  · rw [Nat.add_mod, Nat.mod_eq_zero_of_dvd hd, Nat.add_zero, Nat.mod_mod, Nat.mod_eq_of_lt ha]

theorem sshiftRight_ofNat (h0 : 0 < n) (ha : a < 2 ^ n) :
    ((BitVec.ofNat n a).sshiftRight k).toNat =
      if 2 * a < 2 ^ n then a >>> k else 2 ^ n - 1 - (2 ^ n - 1 - a) >>> k := by
  rw [BitVec.toNat_sshiftRight, BitVec.toNat_ofNat, Nat.mod_eq_of_lt ha]
  by_cases h : 2 * a < 2 ^ n
  · rw [if_pos h, if_neg ((msb_ofNat h0 ha).not.mpr (not_not.mpr h))]
  · rw [if_neg h, if_pos ((msb_ofNat h0 ha).mpr h)]

/-- Shifting `n` bits up to the top of a word and back down to `m` bits extends the sign. -/
theorem shift_sext {w : ℕ} (h0 : 0 < n) (hnm : n ≤ m) (hmw : m ≤ w) :
    ((BitVec.ofNat w x <<< (w - n)).sshiftRight (m - n)).toNat >>> (w - m) =
      sext n m (x % 2 ^ n) := by
  have hw : (2 : ℕ) ^ w = 2 ^ n * 2 ^ (w - n) := by
    rw [← pow_add, show n + (w - n) = w by omega]
  have hQ : (2 : ℕ) ^ (w - n) = 2 ^ (m - n) * 2 ^ (w - m) := by
    rw [← pow_add, show m - n + (w - m) = w - n by omega]
  have hm : (2 : ℕ) ^ m = 2 ^ n * 2 ^ (m - n) := by
    rw [← pow_add, show n + (m - n) = m by omega]
  have hP : 0 < 2 ^ (m - n) := Nat.two_pow_pos _
  have hW : 0 < 2 ^ (w - m) := Nat.two_pow_pos _
  have hlt : x % 2 ^ n < 2 ^ n := Nat.mod_lt _ (Nat.two_pow_pos n)
  have hval : (BitVec.ofNat w x <<< (w - n)).toNat = x % 2 ^ n * 2 ^ (w - n) := by
    rw [BitVec.toNat_shiftLeft, BitVec.toNat_ofNat, Nat.shiftLeft_eq, Nat.mod_mul_mod, hw,
      Nat.mul_mod_mul_right]
  have hsign : (BitVec.ofNat w x <<< (w - n)).msb = true ↔ ¬2 * (x % 2 ^ n) < 2 ^ n := by
    have hhalf := two_pow_half (show 0 < w by omega)
    have hs : 2 ^ n ≤ 2 * (x % 2 ^ n) ↔ 2 ^ w ≤ 2 * (x % 2 ^ n * 2 ^ (w - n)) := by
      rw [hw, ← Nat.mul_assoc, Nat.mul_le_mul_right_iff (Nat.two_pow_pos _)]
    rw [BitVec.msb_eq_decide, hval, decide_eq_true_eq]
    omega
  rw [BitVec.toNat_sshiftRight, hval, sext]
  generalize x % 2 ^ n = a at *
  by_cases hneg : 2 * a < 2 ^ n
  · rw [if_pos hneg, if_neg (hsign.not.mpr (not_not.mpr hneg)), ← Nat.shiftRight_add,
      show m - n + (w - m) = w - n by omega, Nat.shiftRight_eq_div_pow]
    exact Nat.mul_div_cancel _ (Nat.two_pow_pos _)
  · rw [if_neg hneg, if_pos (hsign.mpr hneg), Nat.shiftRight_eq_div_pow, Nat.shiftRight_eq_div_pow,
      hw, hm, hQ]
    generalize 2 ^ n = A at *
    generalize 2 ^ (m - n) = P at *
    generalize 2 ^ (w - m) = W at *
    obtain ⟨d, rfl⟩ : ∃ d, A = a + d := ⟨A - a, by omega⟩
    have hdW : 0 < d * W := Nat.mul_pos (by omega) hW
    have hall : (a + d) * (P * W) = a * (P * W) + d * W * P := by ring
    -- the complement of the number is shifted instead
    have hd : ((a + d) * (P * W) - 1 - a * (P * W)) / P = d * W - 1 := by
      have hsub : (d * W - 1) * P = d * W * P - P := by rw [Nat.sub_mul, Nat.one_mul]
      have hle : P ≤ d * W * P := Nat.le_mul_of_pos_left P hdW
      rw [show (a + d) * (P * W) - 1 - a * (P * W) = P - 1 + (d * W - 1) * P by omega,
        Nat.add_mul_div_right _ _ hP, Nat.div_eq_of_lt (by omega), Nat.zero_add]
    have hle : a + d ≤ (a + d) * P := Nat.le_mul_of_pos_right _ hP
    have hmul : ((a + d) * P - d) * W = (a + d) * (P * W) - d * W := by
      rw [Nat.sub_mul, Nat.mul_assoc]
    rw [hd, show (a + d) * (P * W) - 1 - (d * W - 1) = ((a + d) * P - d) * W by omega,
      Nat.mul_div_cancel _ hW]
    omega

end Signed
