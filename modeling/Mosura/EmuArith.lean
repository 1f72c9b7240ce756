import Mosura.ConstFoldSound

/-! Carries, overflows and divisions of words of at most eight bytes, as the interpreter has them. -/

namespace Mosura
namespace Emu

variable {s : ℕ} {x y : U64}

theorem mask_toNat (v : U64) (h0 : 0 < s) : (mask v s).toNat = v.toNat % 2 ^ (8 * s) := by
  rw [mask_eq v h0, Rules.mask_toNat]

theorem sext_setWidth (v : U64) (h0 : 0 < s) (h8 : s ≤ 8) :
    sext v s = (v.setWidth (8 * s)).signExtend 64 := by
  rw [sext_eq v h0 h8, Rules.sext_eq v h0 h8]

/-- The low bytes of a masked word. -/
theorem setWidth_mask (v : U64) (h0 : 0 < s) : (mask v s).setWidth (8 * s) = v.setWidth (8 * s) := by
  apply BitVec.eq_of_toNat_eq
  rw [BitVec.toNat_setWidth, mask_toNat v h0, Nat.mod_mod, BitVec.toNat_setWidth]

/-- The low bytes of a word extended from its low bytes. -/
theorem setWidth_sext (v : U64) (h0 : 0 < s) (h8 : s ≤ 8) :
    (sext v s).setWidth (8 * s) = v.setWidth (8 * s) := by
  apply BitVec.eq_of_getLsbD_eq
  intro i hi
  have h64 : i < 64 := by omega
  rw [sext_eq v h0 h8, BitVec.getLsbD_setWidth, BitVec.getLsbD_setWidth, Rules.sext_getLsbD v h0 h8]
  simp [hi, h64]

/-- The sign of an extended word. -/
theorem sext_slt_zero (v : U64) (h0 : 0 < s) (h8 : s ≤ 8) :
    (sext v s).slt 0 = (v.setWidth (8 * s)).msb := by
  have hlast : 8 * s - 1 < 8 * s := by omega
  change (sext v s).slt 0#64 = _
  rw [BitVec.slt_zero_eq_msb, sext_eq v h0 h8, BitVec.msb_eq_getLsbD_last,
    BitVec.msb_eq_getLsbD_last, Rules.sext_getLsbD v h0 h8, BitVec.getLsbD_setWidth]
  by_cases h : 63 < 8 * s
  · obtain rfl : s = 8 := by omega
    simp
  · simp [h, hlast]

theorem toInt_sext (v : U64) (h0 : 0 < s) (h8 : s ≤ 8) :
    (sext v s).toInt = (v.setWidth (8 * s)).toInt := by
  rw [sext_setWidth v h0 h8, BitVec.toInt_signExtend_of_le (by omega)]

/-- INT_CARRY of masked words. -/
theorem carry_word (h8 : s ≤ 8) (h0 : 0 < s) (hx : x.toNat < 2 ^ (8 * s)) (hy : y.toNat < 2 ^ (8 * s)) :
    (decide (mask (BitVec.allOnes 64) s < x + y) || decide (2 ^ 64 ≤ x.toNat + y.toNat)) =
      decide (2 ^ (8 * s) ≤ x.toNat + y.toNat) := by
  have hpos := Nat.two_pow_pos (8 * s)
  have hdvd : (2 : ℕ) ^ (8 * s) ∣ 2 ^ 64 := pow_dvd_pow 2 (by omega)
  have hle : (2 : ℕ) ^ (8 * s) ≤ 2 ^ 64 := Nat.le_of_dvd (Nat.two_pow_pos 64) hdvd
  have hones : (mask (BitVec.allOnes 64) s).toNat = 2 ^ (8 * s) - 1 := by
    rw [mask_toNat _ h0, BitVec.toNat_allOnes]
    obtain ⟨k, hk⟩ := hdvd
    have hk0 : 0 < k := by
      by_contra h
      obtain rfl : k = 0 := by omega
      simp at hk
    obtain ⟨j, rfl⟩ := Nat.exists_eq_add_of_lt hk0
    have hsplit : 2 ^ 64 - 1 = 2 ^ (8 * s) - 1 + 2 ^ (8 * s) * j := by
      rw [hk, Nat.zero_add, Nat.mul_add, Nat.mul_one]
      omega
    rw [hsplit, Nat.add_mul_mod_self_left, Nat.mod_eq_of_lt (by omega)]
  rw [← Bool.decide_or]
  congr 1
  rw [BitVec.lt_def, hones, BitVec.toNat_add, eq_iff_iff]
  by_cases h64 : s = 8
  · subst h64
    omega
  · have hlt : 2 * 2 ^ (8 * s) ≤ 2 ^ 64 := by
      rw [← Nat.pow_succ']
      exact Nat.pow_le_pow_right two_pos (by omega)
    rw [Nat.mod_eq_of_lt (by omega)]
    omega

/-- INT_SCARRY: the signs of the operands and of the sum at their width. -/
theorem scarry_word (h0 : 0 < s) (h8 : s ≤ 8) :
    (((sext x s).slt 0 == (sext y s).slt 0) &&
        ((sext x s).slt 0 != (sext (mask (sext x s + sext y s) s) s).slt 0)) =
      BitVec.saddOverflow (x.setWidth (8 * s)) (y.setWidth (8 * s)) := by
  rw [BitVec.saddOverflow_eq, sext_slt_zero x h0 h8, sext_slt_zero y h0 h8, sext_slt_zero _ h0 h8,
    setWidth_mask _ h0, BitVec.setWidth_add _ _ (by omega), setWidth_sext x h0 h8,
    setWidth_sext y h0 h8]
  cases (x.setWidth (8 * s)).msb <;> cases (y.setWidth (8 * s)).msb <;>
    cases (x.setWidth (8 * s) + y.setWidth (8 * s)).msb <;> rfl

/-- INT_SBORROW: the signs of the operands and of the difference at their width. -/
theorem sborrow_word (h0 : 0 < s) (h8 : s ≤ 8) :
    (((sext x s).slt 0 != (sext y s).slt 0) &&
        ((sext x s).slt 0 != (sext (mask (sext x s - sext y s) s) s).slt 0)) =
      BitVec.ssubOverflow (x.setWidth (8 * s)) (y.setWidth (8 * s)) := by
  have hsub : (sext x s - sext y s).setWidth (8 * s) = x.setWidth (8 * s) - y.setWidth (8 * s) := by
    rw [BitVec.sub_eq_add_neg, BitVec.setWidth_add _ _ (by omega), BitVec.setWidth_neg_of_le (by omega),
      setWidth_sext x h0 h8, setWidth_sext y h0 h8, BitVec.sub_eq_add_neg]
  rw [BitVec.ssubOverflow_eq, sext_slt_zero x h0 h8, sext_slt_zero y h0 h8, sext_slt_zero _ h0 h8,
    setWidth_mask _ h0, hsub]
  cases (x.setWidth (8 * s)).msb <;> cases (y.setWidth (8 * s)).msb <;>
    cases (x.setWidth (8 * s) - y.setWidth (8 * s)).msb <;> rfl

/-- A word of fewer bytes as the integer it is modulo its width. -/
theorem toInt_setWidth_of_le {w : ℕ} (hw : w ≤ 64) (v : U64) :
    (v.setWidth w).toInt = v.toInt.bmod (2 ^ w) := by
  have hdvd : ((2 ^ w : ℕ) : ℤ) ∣ ((2 ^ 64 : ℕ) : ℤ) := Int.natCast_dvd_natCast.mpr (pow_dvd_pow 2 hw)
  rw [BitVec.toInt_setWidth, BitVec.toInt_eq_toNat_bmod v,
    Int.bmod_bmod_of_dvd (Int.natCast_dvd_natCast.mp hdvd)]

/-- INT_SDIV of extended words, cut to their width. -/
theorem sdiv_word (h0 : 0 < s) (h8 : s ≤ 8) :
    ((sext x s).sdiv (sext y s)).setWidth (8 * s) =
      (x.setWidth (8 * s)).sdiv (y.setWidth (8 * s)) := by
  apply BitVec.eq_of_toInt_eq
  rw [toInt_setWidth_of_le (by omega), BitVec.toInt_sdiv, BitVec.toInt_sdiv, toInt_sext x h0 h8,
    toInt_sext y h0 h8, Int.bmod_bmod_of_dvd (pow_dvd_pow 2 (by omega))]

/-- INT_SREM of extended words, cut to their width. -/
theorem srem_word (h0 : 0 < s) (h8 : s ≤ 8) :
    ((sext x s).srem (sext y s)).setWidth (8 * s) =
      (x.setWidth (8 * s)).srem (y.setWidth (8 * s)) := by
  apply BitVec.eq_of_toInt_eq
  rw [toInt_setWidth_of_le (by omega), BitVec.toInt_srem, toInt_sext x h0 h8, toInt_sext y h0 h8,
    ← BitVec.toInt_srem]
  exact BitVec.toInt_bmod_cancel _

end Emu
end Mosura
