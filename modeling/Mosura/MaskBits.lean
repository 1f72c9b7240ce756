import Mosura.Nzmask
import Mosura.Lib.Window

/-! The bits of the mask operations of `nzmask.rs`. -/

namespace Mosura
open Window

theorem calcMask_getLsbD (size i : ℕ) :
    (calcMask size).getLsbD i = (decide (i < 64) && decide (i < 8 * size)) := by
  unfold calcMask
  split
  · rename_i h
    rw [BitVec.getLsbD_allOnes]
    by_cases hi : i < 64
    · simp only [hi, show i < 8 * size by omega, decide_true, Bool.and_self]
    · simp only [hi, decide_false, Bool.false_and]
  · rename_i h
    have h8 : 8 * size < 64 := by omega
    have he : (1#64 <<< (8 * size)) - 1#64 = BitVec.ofNat 64 (2 ^ (8 * size) - 1) := by
      apply BitVec.eq_of_toNat_eq
      have hp : 2 ^ (8 * size) < 2 ^ 64 := Nat.pow_lt_pow_right (by norm_num) h8
      have h1 : 1 ≤ 2 ^ (8 * size) := Nat.one_le_two_pow
      simp only [BitVec.toNat_sub, BitVec.toNat_shiftLeft, BitVec.toNat_ofNat]
      rw [show 1 % 2 ^ 64 = 1 from rfl, Nat.one_shiftLeft]
      omega
    rw [he, BitVec.getLsbD_ofNat, Nat.testBit_two_pow_sub_one]

theorem pcodeLeft_getLsbD (m : U64) (sa i : ℕ) :
    (pcodeLeft m sa).getLsbD i = (decide (i < 64) && decide (sa ≤ i) && m.getLsbD (i - sa)) := by
  unfold pcodeLeft
  split
  · rename_i h
    by_cases hi : i < 64
    · simp [show ¬ sa ≤ i by omega]
    · simp [hi]
  · rw [BitVec.getLsbD_shiftLeft, ← decide_not]
    simp only [not_lt]

theorem pcodeRight_getLsbD (m : U64) (sa i : ℕ) :
    (pcodeRight m sa).getLsbD i = m.getLsbD (sa + i) := by
  unfold pcodeRight
  split
  · rw [BitVec.getLsbD_of_ge m (sa + i) (by omega)]
    simp
  · simp [BitVec.getLsbD_ushiftRight]

theorem lt_bitLen_iff_testBit {v i : ℕ} : i < bitLen v ↔ ∃ j, i ≤ j ∧ v.testBit j = true := by
  rw [← not_le, bitLen_le_iff]
  constructor
  · intro h
    obtain ⟨j, hj, hb⟩ := Nat.exists_ge_and_testBit_of_ge_two_pow (not_lt.mp h)
    exact ⟨j, hj, hb⟩
  · rintro ⟨j, hj, hb⟩ h
    rw [Nat.testBit_lt_two_pow (h.trans_le (Nat.pow_le_pow_right (by omega) hj))] at hb
    cases hb

/-- One smearing step doubles the reach of the mask. -/
theorem smear_getLsbD {m v : U64} {n : ℕ}
    (h : ∀ i, v.getLsbD i = true ↔ ∃ k < n, m.getLsbD (i + k) = true) (i : ℕ) :
    (v ||| v >>> n).getLsbD i = true ↔ ∃ k < n * 2, m.getLsbD (i + k) = true := by
  rw [BitVec.getLsbD_or, Bool.or_eq_true, BitVec.getLsbD_ushiftRight, h, h]
  constructor
  · rintro (⟨k, hk, hb⟩ | ⟨k, hk, hb⟩)
    · exact ⟨k, by omega, hb⟩
    · exact ⟨n + k, by omega, by rw [← hb]; congr 1; omega⟩
  · rintro ⟨k, hk, hb⟩
    by_cases hn : k < n
    · exact .inl ⟨k, hn, hb⟩
    · exact .inr ⟨k - n, by omega, by rw [← hb]; congr 1; omega⟩

/-- `coveringmask` is the run of ones as long as its argument. -/
theorem coveringmask_getLsbD (m : U64) (i : ℕ) :
    (coveringmask m).getLsbD i = decide (i < bitLen m.toNat) := by
  have h0 : ∀ i, m.getLsbD i = true ↔ ∃ k < 1, m.getLsbD (i + k) = true := by
    intro i
    exact ⟨fun h => ⟨0, by omega, h⟩, fun ⟨k, hk, h⟩ => by rwa [show k = 0 by omega] at h⟩
  have h := smear_getLsbD (smear_getLsbD (smear_getLsbD (smear_getLsbD (smear_getLsbD
    (smear_getLsbD h0))))) i
  rw [Bool.eq_iff_iff, decide_eq_true_eq, lt_bitLen_iff_testBit]
  refine Iff.trans h ⟨fun ⟨k, _, hb⟩ => ⟨i + k, by omega, hb⟩, fun ⟨j, hj, hb⟩ => ?_⟩
  have h64 : j < 64 := BitVec.lt_of_getLsbD (x := m) hb
  exact ⟨j - i, by omega, by rw [show i + (j - i) = j by omega]; exact hb⟩

theorem mostsigbitSet_eq_some {m : U64} {k : ℕ} (h : mostsigbitSet m = some k) :
    bitLen m.toNat = k + 1 := by
  unfold mostsigbitSet at h
  split at h
  · cases h
  · rename_i hm
    have hm : m.toNat ≠ 0 := fun h0 => hm (BitVec.eq_of_toNat_eq h0)
    simp only [Option.some.injEq] at h
    rw [bitLen, if_neg hm, h]

theorem mostsigbitSet_eq_none {m : U64} : mostsigbitSet m = none ↔ m = 0 := by
  unfold mostsigbitSet
  split <;> simp_all

theorem leastsigbitSet_eq_some {m : U64} {l : ℕ} :
    leastsigbitSet m = some l ↔ m.getLsbD l = true ∧ ∀ i < l, m.getLsbD i = false := by
  unfold leastsigbitSet
  rw [List.find?_range_eq_some]
  constructor
  · rintro ⟨h, _, hlt⟩
    exact ⟨h, fun i hi => by simpa using hlt i hi⟩
  · rintro ⟨h, hlt⟩
    exact ⟨h, List.mem_range.mpr (BitVec.lt_of_getLsbD h), fun i hi => by simpa using hlt i hi⟩

theorem leastsigbitSet_eq_none {m : U64} : leastsigbitSet m = none ↔ m = 0 := by
  unfold leastsigbitSet
  rw [List.find?_eq_none]
  constructor
  · intro h
    apply BitVec.eq_of_getLsbD_eq
    intro i hi
    simpa using h i (List.mem_range.mpr hi)
  · rintro rfl
    simp

/-- A mask with bits only between its lowest and its highest set bit. -/
theorem getLsbD_window {m : U64} {l k i : ℕ} (hl : leastsigbitSet m = some l)
    (hk : mostsigbitSet m = some k) (h : m.getLsbD i = true) : l ≤ i ∧ i ≤ k := by
  constructor
  · by_contra hlt
    rw [(leastsigbitSet_eq_some.mp hl).2 i (by omega)] at h
    cases h
  · have := lt_bitLen_iff_testBit.mpr ⟨i, le_rfl, h⟩
    have := mostsigbitSet_eq_some hk
    omega

theorem leastsigbitSet_le_mostsigbitSet {m : U64} {l k : ℕ} (hl : leastsigbitSet m = some l)
    (hk : mostsigbitSet m = some k) : l ≤ k :=
  (getLsbD_window hl hk (leastsigbitSet_eq_some.mp hl).1).2

theorem signExtendMask_getLsbD (m : U64) {sizein sizeout i : ℕ} (h0 : 0 < sizein)
    (hlt : sizein < sizeout) :
    (signExtendMask m sizein sizeout).getLsbD i = (decide (i < 64) && decide (i < 8 * sizeout) &&
      if i < 8 * sizein then m.getLsbD i else m.getLsbD (8 * sizein - 1)) := by
  unfold signExtendMask
  by_cases h8 : 8 ≤ sizein
  · simp only [Nat.min_eq_right h8, Nat.min_eq_right (show 8 ≤ sizeout by omega), le_refl, if_true,
      BitVec.getLsbD_and, calcMask_getLsbD]
    by_cases hi : i < 64
    · simp [hi, show i < 8 * sizein by omega, show i < 8 * sizeout by omega]
    · simp [hi]
  · have hs : min sizein 8 = sizein := by omega
    have hso : sizein < min sizeout 8 := by omega
    rw [hs, if_neg (by omega)]
    obtain ⟨t, ht, ht'⟩ : ∃ t, min sizeout 8 = t ∧ t ≤ 8 := ⟨_, rfl, by omega⟩
    rw [ht] at hso ⊢
    have hm : (m <<< ((8 - sizein) * 8 % 64)).msb = m.getLsbD (8 * sizein - 1) := by
      rw [BitVec.msb_eq_getLsbD_last, BitVec.getLsbD_shiftLeft]
      simp only [show ¬ 64 - 1 < (8 - sizein) * 8 % 64 by omega,
        show 64 - 1 - (8 - sizein) * 8 % 64 = 8 * sizein - 1 by omega]
      simp
    rw [BitVec.getLsbD_ushiftRight, BitVec.getLsbD_sshiftRight, hm, BitVec.getLsbD_shiftLeft]
    by_cases hi : i < 64 ∧ i < 8 * sizeout
    · simp only [hi, decide_true, Bool.true_and, Bool.and_true]
      have hb : ¬ 64 ≤ (8 - t) * 8 + i := by omega
      simp only [hb, decide_false, Bool.not_false, Bool.true_and]
      by_cases hs : i < 8 * sizein
      · rw [if_pos (by omega), if_pos hs,
          show (t - sizein) * 8 + ((8 - t) * 8 + i) = (8 - sizein) * 8 % 64 + i by omega]
        simp only [show (8 - sizein) * 8 % 64 + i < 64 by omega, Nat.add_sub_cancel_left,
          show ¬ (8 - sizein) * 8 % 64 + i < (8 - sizein) * 8 % 64 by omega, decide_true,
          decide_false, Bool.not_false, Bool.true_and]
      · rw [if_neg (by omega), if_neg hs]
    · have hb : 64 ≤ (8 - t) * 8 + i := by omega
      have hd : (decide (i < 64) && decide (i < 8 * sizeout)) = false := by
        simpa [Decidable.not_and_iff_or_not] using hi
      simp only [hb, hd, decide_true, Bool.not_true, Bool.false_and]

theorem exists_window {m : U64} (h : m ≠ 0) :
    ∃ l k, leastsigbitSet m = some l ∧ mostsigbitSet m = some k := by
  obtain ⟨l, hl⟩ := Option.ne_none_iff_exists'.mp (mt leastsigbitSet_eq_none.mp h)
  obtain ⟨k, hk⟩ := Option.ne_none_iff_exists'.mp (mt mostsigbitSet_eq_none.mp h)
  exact ⟨l, k, hl, hk⟩

/-- What a mask with lowest bit `l` and highest bit `k` says about a covered value. -/
theorem covered_bounds {m : U64} {x l k : ℕ} (hl : leastsigbitSet m = some l)
    (hk : mostsigbitSet m = some k) (h : Covers m x) (hx : x < 2 ^ 64) :
    2 ^ l ∣ x ∧ x < 2 ^ (k + 1) ∧ (l = k → x ≤ 2 ^ k) := by
  have hd := two_pow_dvd_of_covers h hx (leastsigbitSet_eq_some.mp hl).2
  have hlt : x < 2 ^ (k + 1) := by
    have := (le_toNat_of_covers h hx).trans_lt (lt_two_pow_bitLen m.toNat)
    rwa [mostsigbitSet_eq_some hk] at this
  refine ⟨hd, hlt, ?_⟩
  rintro rfl
  obtain ⟨c, rfl⟩ := hd
  rw [pow_succ] at hlt
  have hc : c < 2 := Nat.lt_of_mul_lt_mul_left hlt
  exact (Nat.mul_le_mul_left _ (Nat.le_of_lt_succ hc)).trans (Nat.mul_one _).le

/-- One past the highest bit a product can have, for factors with set bits in `[l1, m1]` and
`[l2, m2]`. -/
def productTop (l1 m1 l2 m2 : ℕ) : ℕ := if l1 = m1 ∨ l2 = m2 then m1 + m2 + 1 else m1 + m2 + 2

theorem mul_lt_productTop {l1 m1 l2 m2 x y : ℕ} (hx : x < 2 ^ (m1 + 1)) (hy : y < 2 ^ (m2 + 1))
    (hx1 : l1 = m1 → x ≤ 2 ^ m1) (hy1 : l2 = m2 → y ≤ 2 ^ m2) :
    x * y < 2 ^ productTop l1 m1 l2 m2 := by
  unfold productTop
  split_ifs with h
  · rcases h with h | h
    · calc x * y ≤ 2 ^ m1 * y := Nat.mul_le_mul_right _ (hx1 h)
        _ < 2 ^ m1 * 2 ^ (m2 + 1) := Nat.mul_lt_mul_of_pos_left hy (Nat.two_pow_pos _)
        _ = 2 ^ (m1 + m2 + 1) := by rw [← pow_add, ← Nat.add_assoc]
    · calc x * y ≤ x * 2 ^ m2 := Nat.mul_le_mul_left _ (hy1 h)
        _ < 2 ^ (m1 + 1) * 2 ^ m2 := Nat.mul_lt_mul_of_pos_right hx (Nat.two_pow_pos _)
        _ = 2 ^ (m1 + m2 + 1) := by rw [← pow_add]; congr 1; omega
  · calc x * y < 2 ^ (m1 + 1) * 2 ^ (m2 + 1) := Nat.mul_lt_mul'' hx hy
      _ = 2 ^ (m1 + m2 + 2) := by rw [← pow_add]; congr 1; omega

theorem multMask_getLsbD {size l1 m1 l2 m2 : ℕ} {v r : U64} (h8 : size ≤ 8)
    (hm1 : mostsigbitSet v = some m1) (hm2 : mostsigbitSet r = some m2)
    (hl1 : leastsigbitSet v = some l1) (hl2 : leastsigbitSet r = some l2) (i : ℕ) :
    (multMask size v r).getLsbD i =
      (decide (i < 8 * size) && decide (l1 + l2 ≤ i) && decide (i < productTop l1 m1 l2 m2)) := by
  have h1 := leastsigbitSet_le_mostsigbitSet hl1 hm1
  have h2 := leastsigbitSet_le_mostsigbitSet hl2 hm2
  unfold multMask
  rw [if_neg (by omega), hm1, hm2, hl1, hl2]
  simp only []
  obtain ⟨total, htop, htot⟩ : ∃ total, productTop l1 m1 l2 m2 = l1 + l2 + total ∧
      (if m1 - l1 + 1 = 1 ∨ m2 - l2 + 1 = 1 then m1 - l1 + 1 + (m2 - l2 + 1) - 1
        else m1 - l1 + 1 + (m2 - l2 + 1)) = total := by
    refine ⟨_, ?_, rfl⟩
    unfold productTop
    split_ifs <;> omega
  rw [htop, htot]
  by_cases hsa : 8 * size ≤ l1 + l2
  · rw [if_pos hsa]
    by_cases hi : i < 8 * size
    · simp [show ¬ l1 + l2 ≤ i by omega]
    · simp [hi]
  · rw [if_neg hsa, BitVec.getLsbD_and, calcMask_getLsbD, pcodeLeft_getLsbD]
    have hr : (if total < 8 * size then pcodeRight (calcMask size) (8 * size - total)
        else calcMask size).getLsbD (i - (l1 + l2)) =
        (decide (i - (l1 + l2) < total) && decide (i - (l1 + l2) < 8 * size)) := by
      split
      · rw [pcodeRight_getLsbD, calcMask_getLsbD, Bool.eq_iff_iff]
        simp only [Bool.and_eq_true, decide_eq_true_eq]
        omega
      · rw [calcMask_getLsbD, Bool.eq_iff_iff]
        simp only [Bool.and_eq_true, decide_eq_true_eq]
        omega
    rw [hr, Bool.eq_iff_iff]
    simp only [Bool.and_eq_true, decide_eq_true_eq]
    omega

theorem multMask_zero {size : ℕ} {v r : U64} (h8 : size ≤ 8) (h : v = 0 ∨ r = 0) :
    multMask size v r = 0 := by
  unfold multMask
  rw [if_neg (by omega)]
  rcases h with rfl | rfl
  · rfl
  · cases mostsigbitSet v <;> rfl

end Mosura
