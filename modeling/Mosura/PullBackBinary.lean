import Mosura.PullBack

/-! Pulling a range back through a binary op with a constant operand. -/

namespace Mosura.CircleRange
open Arc

variable {n : ℕ} {R R' : CircleRange} {opc : OpCode} {val slot inSize outSize x y c : ℕ}

/-! Sums and differences. -/

theorem intAdd_exact (h8 : inSize ≤ 8) (hv : val < 2 ^ 64) (hR : R.WellFormed (8 * inSize))
    (he : R.isempty = false) (h : R.pullBackBinary .intAdd val slot inSize = some (true, R')) :
    Preimage R R' inSize (withConstant .intAdd val slot inSize inSize) := by
  intro x hx y hy
  have hn : 8 * inSize ≤ 64 := by omega
  have hy : y = (x + val) % 2 ^ (8 * inSize) := by
    unfold withConstant at hy
    split_ifs at hy
    · exact (Option.some.inj hy).symm
    · rw [Nat.add_comm]
      exact (Option.some.inj hy).symm
  have hback : (y + (2 ^ 64 - val)) % 2 ^ (8 * inSize) = x := by
    rw [hy, Nat.mod_add_mod, show x + val + (2 ^ 64 - val) = x + 2 ^ 64 by omega, add_word_mod hn,
      Nat.mod_eq_of_lt hx]
  rw [pullBackBinary, if_neg (by simp [he])] at h
  cases h
  rw [hR.mask, wrappingSub_and hn, wrappingSub_and hn, ← hR.mask]
  have hturn := containsVal_turn (c := 2 ^ 64 - val) hR (y := y)
    (hy ▸ Nat.mod_lt _ (Nat.two_pow_pos _))
  rw [hback] at hturn
  exact hturn

theorem intSub_first_exact (h8 : inSize ≤ 8) (hv : val < 2 ^ (8 * inSize))
    (hR : R.WellFormed (8 * inSize)) (he : R.isempty = false)
    (h : R.pullBackBinary .intSub val 0 inSize = some (true, R')) :
    Preimage R R' inSize (withConstant .intSub val 0 inSize inSize) := by
  intro x hx y hy
  have hn : 8 * inSize ≤ 64 := by omega
  have hy : y = (2 ^ (8 * inSize) - val + x) % 2 ^ (8 * inSize) := by
    simp only [withConstant, if_true, evalBinary, Option.some.injEq, BitVec.toNat_sub,
      BitVec.toNat_ofNat, Nat.mod_eq_of_lt hx, Nat.mod_eq_of_lt hv] at hy
    exact hy.symm
  have hback : (y + val) % 2 ^ (8 * inSize) = x := by
    rw [hy, Nat.mod_add_mod, show 2 ^ (8 * inSize) - val + x + val = x + 2 ^ (8 * inSize) by omega,
      Nat.add_mod_right, Nat.mod_eq_of_lt hx]
  rw [pullBackBinary, if_neg (by simp [he])] at h
  cases h
  rw [hR.mask, wrappingAdd_and hn, wrappingAdd_and hn, ← hR.mask]
  have hturn := containsVal_turn (c := val) hR (y := y) (hy ▸ Nat.mod_lt _ (Nat.two_pow_pos _))
  rw [hback] at hturn
  exact hturn

/-- The boundaries of a difference with the variable second. -/
theorem intSub_second_result (h8 : inSize ≤ 8) (hv : val < 2 ^ (8 * inSize)) (hslot : slot ≠ 0)
    (hR : R.WellFormed (8 * inSize)) (he : R.isempty = false)
    (h : R.pullBackBinary .intSub val slot inSize = some (true, R')) :
    ∃ l r, l < 2 ^ (8 * inSize) ∧ r < 2 ^ (8 * inSize) ∧ R' = { R with left := l, right := r } ∧
      (l + R.left) % 2 ^ (8 * inSize) = val ∧ (r + R.right) % 2 ^ (8 * inSize) = val := by
  have hn : 8 * inSize ≤ 64 := by omega
  have hle : (2 : ℕ) ^ (8 * inSize) ≤ 2 ^ 64 := Nat.pow_le_pow_right two_pos hn
  have hback : ∀ b < 2 ^ (8 * inSize),
      ((val + (2 ^ 64 - b)) % 2 ^ (8 * inSize) + b) % 2 ^ (8 * inSize) = val := by
    intro b hb
    rw [Nat.mod_add_mod, show val + (2 ^ 64 - b) + b = val + 2 ^ 64 by omega, add_word_mod hn,
      Nat.mod_eq_of_lt hv]
  rw [pullBackBinary, if_neg (by simp [he]), if_neg hslot] at h
  cases h
  refine ⟨_, _, and_mask_lt hR.mask _, and_mask_lt hR.mask _, rfl, ?_, ?_⟩
  · rw [hR.mask, wrappingSub_and hn]
    exact hback _ hR.left_lt
  · rw [hR.mask, wrappingSub_and hn]
    exact hback _ hR.right_lt

theorem intSub_second_exact_iff (h8 : inSize ≤ 8) (hv : val < 2 ^ (8 * inSize)) (hslot : slot ≠ 0)
    (hR : R.WellFormed (8 * inSize)) (he : R.isempty = false)
    (h : R.pullBackBinary .intSub val slot inSize = some (true, R')) :
    Preimage R R' inSize (withConstant .intSub val slot inSize inSize) ↔
      R.left = R.right ∨ 2 * R.stepU = 2 ^ (8 * inSize) := by
  obtain ⟨l, r, hl, hr, rfl, hlc, hrc⟩ := intSub_second_result h8 hv hslot hR he h
  have hM : ∀ y, y % 2 ^ (8 * inSize) < 2 ^ (8 * inSize) := fun y => Nat.mod_lt y (Nat.two_pow_pos _)
  have hval : ∀ x < 2 ^ (8 * inSize), ∀ y, withConstant .intSub val slot inSize inSize x = some y →
      y < 2 ^ (8 * inSize) ∧ (x + y) % 2 ^ (8 * inSize) = val := by
    intro x hx y hy
    simp only [withConstant, if_neg hslot, evalBinary, Option.some.injEq, BitVec.toNat_sub,
      BitVec.toNat_ofNat, Nat.mod_eq_of_lt hx, Nat.mod_eq_of_lt hv] at hy
    refine ⟨hy ▸ hM _, ?_⟩
    rw [← hy, Nat.add_mod_mod, show x + (2 ^ (8 * inSize) - x + val) = val + 2 ^ (8 * inSize) by omega,
      Nat.add_mod_right, Nat.mod_eq_of_lt hv]
  have hdef : ∀ x, ∃ y, withConstant .intSub val slot inSize inSize x = some y := by
    intro x
    simp only [withConstant, if_neg hslot, evalBinary]
    exact ⟨_, rfl⟩
  have hRc : ∀ y, R.containsVal y = true ↔ y % R.stepU = R.left % R.stepU ∧
      Mem R.left R.right y := by
    intro y
    rw [hR.containsVal_iff]
    simp only [he, true_and]
  have hRc' : ∀ x, containsVal { R with left := l, right := r } x = true ↔
      x % R.stepU = l % R.stepU ∧ Mem l r x := by
    intro x
    rw [containsVal_bounds hR]
    simp only [he, true_and]
  have hphase := hR.phase
  constructor
  · intro hex
    by_contra hno
    rw [not_or] at hno
    have hd : R.stepU ∣ 2 ^ (8 * inSize) := by
      refine hR.stepU_dvd_or.elim id fun hd => absurd ?_ hno.1
      have hle := Nat.le_of_dvd hR.stepU_pos hd
      rwa [Nat.mod_eq_of_lt (hR.right_lt.trans_le hle), Nat.mod_eq_of_lt (hR.left_lt.trans_le hle),
        eq_comm] at hphase
    obtain ⟨x, y, hx, hy, hxy, hxp, hyp, hiff⟩ := mirror_off hd hR.stepU_pos hR.left_lt hR.right_lt
      hl hr hphase hno.1 hno.2 hlc hrc
    obtain ⟨y', hy'⟩ := hdef x
    obtain ⟨hylt, hysum⟩ := hval x hx y' hy'
    obtain rfl : y' = y := by
      rw [Nat.add_comm] at hysum hxy
      exact add_mod_left_cancel hylt hy (hysum.trans hxy.symm)
    have := hex x hx y' hy'
    rw [hRc', hRc, and_iff_right hxp, and_iff_right hyp] at this
    exact hiff this
  · intro hcond x hx y hy
    obtain ⟨hylt, hysum⟩ := hval x hx y hy
    by_cases heq : R.left = R.right
    · obtain rfl : l = r := add_mod_left_cancel hl hr (s := R.left) (by rw [hlc, heq, hrc])
      rw [hRc', hRc, ← heq]
      simp only [mem_full, and_true]
      rcases hR.stepU_dvd_or with hd | hd
      · apply phase_mirror
        rw [← Nat.mod_mod_of_dvd (x + y) hd, hysum, ← hlc, Nat.mod_mod_of_dvd _ hd]
      · have hle := Nat.le_of_dvd hR.stepU_pos hd
        have := phase_mirror (hysum.trans hlc.symm)
        rwa [Nat.mod_eq_of_lt hx, Nat.mod_eq_of_lt hl, Nat.mod_eq_of_lt hylt,
          Nat.mod_eq_of_lt hR.left_lt, ← Nat.mod_eq_of_lt (hx.trans_le hle),
          ← Nat.mod_eq_of_lt (hl.trans_le hle), ← Nat.mod_eq_of_lt (hylt.trans_le hle),
          ← Nat.mod_eq_of_lt (hR.left_lt.trans_le hle)] at this
    · have h2 := hcond.resolve_left heq
      have hd : R.stepU ∣ 2 ^ (8 * inSize) := ⟨2, by omega⟩
      have g1 := add_le_of_lt hphase
      have g2 := add_le_of_lt hphase.symm
      have g3 := add_le_of_lt ((Nat.add_mod_right R.left _).trans hphase.symm)
      have g4 := add_le_of_lt ((Nat.add_mod_right R.right _).trans hphase)
      have hll := hR.left_lt
      have hrr := hR.right_lt
      -- the two points of the phase, each a stride after the other
      have hnext : (R.left + R.stepU) % 2 ^ (8 * inSize) = R.right ∧
          (R.right + R.stepU) % 2 ^ (8 * inSize) = R.left := by
        rcases Nat.lt_or_gt_of_ne heq with hlt | hgt
        · rw [Nat.mod_eq_of_lt (by omega), Nat.mod_eq_sub_mod (by omega), Nat.mod_eq_of_lt (by omega)]
          omega
        · rw [Nat.mod_eq_sub_mod (by omega), Nat.mod_eq_of_lt (by omega), Nat.mod_eq_of_lt (by omega)]
          omega
      refine containsVal_mirror hR hl hr hx hylt hv ?_ ?_ hysum
      · rw [← hnext.1, Nat.add_mod_mod, ← Nat.add_assoc, ← Nat.mod_add_mod, hlc]
      · conv_lhs => rw [← hnext.2]
        rw [Nat.add_mod_mod, ← Nat.add_assoc, ← Nat.mod_add_mod, hrc]

/-! Right shifts. -/

/-- The range left by a right shift, with the bound `b` of its results. -/
theorem intRight_result (he : R.isempty = false)
    (h : R.pullBackBinary .intRight val slot inSize = some (true, R')) :
    R.step = 1 ∧ slot = 0 ∧ val < 64 ∧
      let b := wrappingAdd (maskOf inSize >>> val) 1
      let all := (b ≤ R.left ∧ b ≤ R.right ∧ R.right ≤ R.left) ∨ (R.left = 0 ∧ b ≤ R.right) ∨
        R.left = R.right
      (all → R' = { R with left := 0, right := 0 }) ∧
      (¬all → R' = R.cut ((if b < R.left then b else R.left) <<< val % 2 ^ 64 &&& R.mask)
        ((if b < R.right then 0 else R.right) <<< val % 2 ^ 64 &&& R.mask)) := by
  rw [pullBackBinary, if_neg (by simp [he])] at h
  by_cases hs : R.step ≠ 1 ∨ slot ≠ 0
  · rw [if_pos hs] at h
    cases h
  rw [if_neg hs] at h
  have h64 : val < 64 := by
    by_contra hge
    rw [shrU64, if_neg hge, Option.bind_none] at h
    cases h
  rw [shrU64, if_pos h64, Option.bind_some] at h
  refine ⟨by tauto, by tauto, h64, fun hall => ?_, fun hno => ?_⟩
  · have h := h.symm.trans (if_pos hall)
    cases h
    rfl
  · have h := h.symm.trans (if_neg hno)
    simp only [shlU64, if_pos h64, Option.bind_some, Option.map_some] at h
    cases h
    rfl

theorem containsVal_cut {l r : ℕ} (hs : R.step = 1) (he : R.isempty = false) :
    (R.cut l r).containsVal x = true ↔ l ≠ r ∧ Mem l r x := by
  rw [containsVal_unit (show (R.cut l r).step = 1 from hs)]
  simp only [cut, he, Bool.false_or, beq_eq_false_iff_ne]

/-- A shift amount inside the width: multiples of `2 ^ val` bound the inputs. -/
theorem shl_and (hn : n ≤ 64) (hk : val ≤ n) (b : ℕ) : b <<< val % 2 ^ 64 &&& 2 ^ n - 1 =
    b % 2 ^ (n - val) * 2 ^ val := by
  rw [Nat.and_two_pow_sub_one_eq_mod, Nat.mod_mod_of_dvd _ (Nat.pow_dvd_pow 2 hn), Nat.shiftLeft_eq,
    show (2 : ℕ) ^ n = 2 ^ (n - val) * 2 ^ val by rw [← pow_add, Nat.sub_add_cancel hk],
    Nat.mul_mod_mul_right]

/-- A shift amount past the width: nothing is left of a boundary. -/
theorem shl_and_eq_zero (hn : n ≤ 64) (hk : n ≤ val) (b : ℕ) :
    b <<< val % 2 ^ 64 &&& 2 ^ n - 1 = 0 := by
  rw [Nat.and_two_pow_sub_one_eq_mod, Nat.mod_mod_of_dvd _ (Nat.pow_dvd_pow 2 hn), Nat.shiftLeft_eq]
  exact Nat.mod_eq_zero_of_dvd ((Nat.pow_dvd_pow 2 hk).mul_left b)

theorem intRight_exact_iff (h8 : inSize ≤ 8) (hR : R.WellFormed (8 * inSize))
    (he : R.isempty = false) (h : R.pullBackBinary .intRight val slot inSize = some (true, R')) :
    Preimage R R' inSize (withConstant .intRight val slot inSize inSize) ↔
      ¬(val = 0 ∧ inSize = 8) ∨ R.left = R.right := by
  obtain ⟨hs, rfl, h64, hall, hno⟩ := intRight_result he h
  have hn : 8 * inSize ≤ 64 := by omega
  have hl := hR.left_lt
  have hr := hR.right_lt
  have hRc : ∀ y, R.containsVal y = true ↔ Mem R.left R.right y := fun y =>
    (containsVal_unit hs y).trans (and_iff_right he)
  have hfull : ∀ x, containsVal { R with left := 0, right := 0 } x = true := by
    intro x
    rw [containsVal_unit (show CircleRange.step { R with left := 0, right := 0 } = 1 from hs)]
    exact ⟨he, mem_full⟩
  have hval : ∀ x y, withConstant .intRight val 0 inSize inSize x = some y ↔
      y = if 8 * inSize ≤ val then 0 else x / 2 ^ val := by
    intro x y
    simp only [withConstant, if_true, evalBinary, Option.some.injEq, Nat.shiftRight_eq_div_pow]
    exact eq_comm
  rcases Nat.lt_or_ge val (8 * inSize) with hlt | hge
  · have hP : 0 < 2 ^ val := Nat.two_pow_pos val
    have hK : 0 < 2 ^ (8 * inSize - val) := Nat.two_pow_pos _
    have hM : (2 : ℕ) ^ (8 * inSize) = 2 ^ (8 * inSize - val) * 2 ^ val := by
      rw [← pow_add, Nat.sub_add_cancel hlt.le]
    have hb : wrappingAdd (maskOf inSize >>> val) 1 = 2 ^ (8 * inSize - val) % 2 ^ 64 := by
      have : maskOf inSize >>> val = 2 ^ (8 * inSize - val) - 1 := by
        rw [maskOf_eq h8, Nat.shiftRight_eq_div_pow, hM]
        generalize 2 ^ (8 * inSize - val) = K at *
        generalize 2 ^ val = P at *
        have hsub : (K - 1) * P = K * P - P := by rw [Nat.sub_mul, Nat.one_mul]
        have hle : P ≤ K * P := Nat.le_mul_of_pos_left P hK
        rw [show K * P - 1 = P - 1 + (K - 1) * P by omega, Nat.add_mul_div_right _ _ hP,
          Nat.div_eq_of_lt (by omega), Nat.zero_add]
      rw [this, wrappingAdd, Nat.sub_add_cancel hK]
    have hkeep : ∀ b, b <<< val % 2 ^ 64 &&& R.mask = b % 2 ^ (8 * inSize - val) * 2 ^ val := by
      intro b
      rw [hR.mask, shl_and hn hlt.le]
    rw [hb] at hall hno
    simp only [hkeep] at hno
    have hdiv : ∀ x < 2 ^ (8 * inSize), x / 2 ^ val < 2 ^ (8 * inSize - val) := fun x hx =>
      Nat.div_lt_of_lt_mul (by rwa [Nat.mul_comm, ← hM])
    by_cases h64' : val = 0 ∧ inSize = 8
    · -- the bound of the results wraps to 0
      obtain ⟨rfl, rfl⟩ := h64'
      have hexact : Preimage R R' 8 (withConstant .intRight 0 0 8 8) ↔
          ∀ x < 2 ^ 64, R'.containsVal x = true ↔ Mem R.left R.right x := by
        refine forall₂_congr fun x _ => ?_
        rw [← hRc]
        constructor
        · exact fun hex => hex x ((hval x x).mpr (by simp))
        · intro hex y hy
          rw [(hval x y).mp hy]
          simpa using hex
      rw [hexact, iff_false_intro (not_not.mpr ⟨rfl, rfl⟩), false_or]
      by_cases heq : R.left = R.right
      · rw [hall (.inr (.inr heq)), heq]
        exact iff_of_true (fun x _ => iff_of_true (hfull x) mem_full) rfl
      refine iff_of_false (fun hex => ?_) heq
      by_cases ha : R.right ≤ R.left ∨ R.left = 0
      · have := (hex R.right hr).mp (by
          rw [hall (by simpa [or_assoc] using ha.imp id Or.inl)]
          exact hfull _)
        unfold Mem at this
        omega
      · have := (hex R.left hl).mpr mem_left
        rw [hno (by simpa [not_or, heq] using ha), containsVal_cut hs he] at this
        rw [not_or] at ha
        rw [show (2 : ℕ) ^ (8 * 8 - 0) % 2 ^ 64 = 0 by norm_num, if_pos (by omega),
          if_pos (by omega)] at this
        exact this.1 rfl
    · have hK64 : 2 ^ (8 * inSize - val) < 2 ^ 64 :=
        Nat.pow_lt_pow_right (by norm_num) (by omega)
      rw [Nat.mod_eq_of_lt hK64] at hall hno
      refine iff_of_true (fun x hx y hy => ?_) (.inl h64')
      rw [hval, if_neg (by omega)] at hy
      subst hy
      have hq := hdiv x hx
      rw [hRc]
      generalize 2 ^ (8 * inSize - val) = K at *
      by_cases ha : (K ≤ R.left ∧ K ≤ R.right ∧ R.right ≤ R.left) ∨ (R.left = 0 ∧ K ≤ R.right) ∨
          R.left = R.right
      · rw [hall ha]
        refine iff_of_true (hfull x) ?_
        generalize x / 2 ^ val = q at hq
        unfold Mem
        omega
      · rw [hno ha, containsVal_cut hs he, mem_mul hP, Ne, Nat.mul_left_inj hP.ne']
        have h1 : (if K < R.left then K else R.left) % K = if R.left < K then R.left else 0 := by
          rcases Nat.lt_trichotomy R.left K with h | h | h
          · rw [if_neg (by omega), if_pos h, Nat.mod_eq_of_lt h]
          · rw [if_neg (by omega), if_neg (by omega), h, Nat.mod_self]
          · rw [if_pos h, if_neg (by omega), Nat.mod_self]
        have h2 : (if K < R.right then 0 else R.right) % K = if R.right < K then R.right else 0 := by
          rcases Nat.lt_trichotomy R.right K with h | h | h
          · rw [if_neg (by omega), if_pos h, Nat.mod_eq_of_lt h]
          · rw [if_neg (by omega), if_neg (by omega), h, Nat.mod_self]
          · rw [if_pos h, if_neg (by omega), Nat.zero_mod]
        rw [h1, h2]
        generalize x / 2 ^ val = q at hq
        unfold Mem
        split_ifs <;> omega
  · -- every result is 0
    have hb : wrappingAdd (maskOf inSize >>> val) 1 = 1 := by
      have : maskOf inSize >>> val = 0 := by
        rw [Nat.shiftRight_eq_div_pow, maskOf_eq h8]
        refine Nat.div_eq_of_lt ?_
        have := Nat.pow_le_pow_right two_pos hge
        have := Nat.two_pow_pos (8 * inSize)
        omega
      rw [this]
      rfl
    rw [hb] at hall hno
    simp only [hR.mask, shl_and_eq_zero hn hge] at hno
    refine iff_of_true (fun x hx y hy => ?_) (.inl (by omega))
    rw [hval, if_pos hge] at hy
    subst hy
    rw [hRc]
    by_cases ha : (1 ≤ R.left ∧ 1 ≤ R.right ∧ R.right ≤ R.left) ∨ (R.left = 0 ∧ 1 ≤ R.right) ∨
        R.left = R.right
    · rw [hall ha]
      refine iff_of_true (hfull x) ?_
      unfold Mem
      omega
    · rw [hno ha, containsVal_cut hs he]
      refine iff_of_false (fun h => h.1 rfl) ?_
      unfold Mem
      omega

/-- The range left by an arithmetic right shift; its results are below `b + 1` or from `c` on. -/
theorem intSright_result (he : R.isempty = false)
    (h : R.pullBackBinary .intSright val slot inSize = some (true, R')) :
    R.step = 1 ∧ slot = 0 ∧ val < 63 ∧
      let b := maskOf inSize >>> (val + 1) + 1
      let c := maskOf inSize >>> (val + 1) ^^^ maskOf inSize
      let all := (b ≤ R.left ∧ R.left ≤ c ∧ b ≤ R.right ∧ R.right ≤ c ∧ R.right ≤ R.left) ∨
        R.left = R.right
      (all → R' = { R with left := 0, right := 0 }) ∧
      (¬all → R' = R.cut
        ((if b < R.left ∧ R.left < c then b else R.left) <<< val % 2 ^ 64 &&& R.mask)
        ((if b < R.right ∧ R.right < c then c else R.right) <<< val % 2 ^ 64 &&& R.mask)) := by
  rw [pullBackBinary, if_neg (by simp [he])] at h
  by_cases hs : R.step ≠ 1 ∨ slot ≠ 0
  · rw [if_pos hs] at h
    cases h
  rw [if_neg hs] at h
  simp only [Option.bind_eq_some_iff] at h
  obtain ⟨amount, hamount, b0, hb0, b, hb, h⟩ := h
  have h63 : val < 63 ∧ amount = val + 1 ∧ b0 = maskOf inSize >>> (val + 1) := by
    unfold addU64 at hamount
    unfold shrU64 at hb0
    split_ifs at hamount hb0
    cases hamount
    cases hb0
    exact ⟨by omega, rfl, rfl⟩
  obtain ⟨h63, rfl, rfl⟩ := h63
  obtain rfl : b = maskOf inSize >>> (val + 1) + 1 := by
    unfold addU64 at hb
    split_ifs at hb
    exact (Option.some.inj hb).symm
  refine ⟨by tauto, by tauto, h63, fun hall => ?_, fun hno => ?_⟩
  · have h := h.symm.trans (if_pos hall)
    cases h
    rfl
  · have h := h.symm.trans (if_neg hno)
    simp only [shlU64, if_pos (show val < 64 by omega), Option.bind_some, Option.map_some] at h
    cases h
    rfl

theorem ones_xor_ones {j : ℕ} (hj : j ≤ n) : (2 ^ j - 1) ^^^ (2 ^ n - 1) = 2 ^ n - 2 ^ j := by
  have hle : (2 : ℕ) ^ j ≤ 2 ^ n := Nat.pow_le_pow_right two_pos hj
  apply Nat.eq_of_testBit_eq
  intro i
  rw [show 2 ^ n - 2 ^ j = 2 ^ j * (2 ^ (n - j) - 1) by
      rw [Nat.mul_sub, ← pow_add, Nat.add_sub_cancel' hj, Nat.mul_one],
    Nat.testBit_xor, Nat.testBit_two_pow_mul, Nat.testBit_two_pow_sub_one,
    Nat.testBit_two_pow_sub_one, Nat.testBit_two_pow_sub_one, Bool.eq_iff_iff]
  simp only [bne_iff_ne, ne_eq, decide_eq_decide, Bool.and_eq_true, decide_eq_true_eq]
  omega

theorem ones_shiftRight (n c : ℕ) : (2 ^ n - 1) >>> c = 2 ^ (n - c) - 1 := by
  apply Nat.eq_of_testBit_eq
  intro i
  rw [Nat.testBit_shiftRight, Nat.testBit_two_pow_sub_one, Nat.testBit_two_pow_sub_one,
    decide_eq_decide]
  omega

/-- The value of an arithmetic right shift, by the quotient of its operand. -/
theorem intSright_value (hi : 1 ≤ inSize) (hx : x < 2 ^ (8 * inSize)) (hlt : val < 8 * inSize) :
    withConstant .intSright val 0 inSize inSize x = some
      (if x / 2 ^ val < 2 ^ (8 * inSize - (val + 1)) then x / 2 ^ val
      else x / 2 ^ val + (2 ^ (8 * inSize) - 2 * 2 ^ (8 * inSize - (val + 1)))) := by
  have hP : 0 < 2 ^ val := Nat.two_pow_pos val
  have hM : (2 : ℕ) ^ (8 * inSize) = 2 ^ val * (2 * 2 ^ (8 * inSize - (val + 1))) := by
    rw [← pow_succ', ← pow_add]
    congr 1
    omega
  have hK : 0 < 2 ^ (8 * inSize - (val + 1)) := Nat.two_pow_pos _
  simp only [withConstant, if_true, evalBinary, Option.some.injEq]
  rw [min_eq_left hlt.le, Signed.sshiftRight_ofNat (by omega) hx, Nat.shiftRight_eq_div_pow,
    Nat.shiftRight_eq_div_pow]
  generalize 2 ^ (8 * inSize - (val + 1)) = K at *
  generalize 2 ^ (8 * inSize) = M at *
  generalize 2 ^ val = P at *
  subst hM
  have hq : x / P < 2 * K := Nat.div_lt_of_lt_mul hx
  have hle : 2 * K ≤ P * (2 * K) := Nat.le_mul_of_pos_left _ hP
  have hhalf : 2 * x < P * (2 * K) ↔ x / P < K := by
    rw [Nat.div_lt_iff_lt_mul hP, show P * (2 * K) = 2 * (K * P) by ring]
    omega
  have hcompl : (P * (2 * K) - 1 - x) / P = 2 * K - (x / P + 1) := by
    rw [Nat.sub_sub, Nat.add_comm 1 x, Nat.mul_sub_div x P (2 * K) hx]
  simp only [hhalf, hcompl]
  generalize x / P = q at *
  split_ifs <;> omega

theorem intSright_exact_iff (hi : 1 ≤ inSize) (h8 : inSize ≤ 8) (hR : R.WellFormed (8 * inSize))
    (he : R.isempty = false) (h : R.pullBackBinary .intSright val slot inSize = some (true, R')) :
    Preimage R R' inSize (withConstant .intSright val slot inSize inSize) ↔
      (val < 8 * inSize ∨
        (R.containsVal 0 = true ↔ R.containsVal (2 ^ (8 * inSize) - 1) = true)) := by
  obtain ⟨hs, rfl, h63, hall, hno⟩ := intSright_result he h
  have hn : 8 * inSize ≤ 64 := by omega
  have hl := hR.left_lt
  have hr := hR.right_lt
  have hRc : ∀ y, R.containsVal y = true ↔ Mem R.left R.right y := fun y =>
    (containsVal_unit hs y).trans (and_iff_right he)
  have hfull : ∀ x, containsVal { R with left := 0, right := 0 } x = true := by
    intro x
    rw [containsVal_unit (show CircleRange.step { R with left := 0, right := 0 } = 1 from hs)]
    exact ⟨he, mem_full⟩
  have hK : 0 < 2 ^ (8 * inSize - (val + 1)) := Nat.two_pow_pos _
  rw [maskOf_eq h8, ones_shiftRight, ones_xor_ones (Nat.sub_le _ _), Nat.sub_add_cancel hK]
    at hall hno
  rcases Nat.lt_or_ge val (8 * inSize) with hlt | hge
  · have hP : 0 < 2 ^ val := Nat.two_pow_pos val
    have hM : (2 : ℕ) ^ (8 * inSize) = 2 * 2 ^ (8 * inSize - (val + 1)) * 2 ^ val := by
      rw [← pow_succ', ← pow_add]
      congr 1
      omega
    have hkeep : ∀ b, b <<< val % 2 ^ 64 &&& R.mask =
        b % (2 * 2 ^ (8 * inSize - (val + 1))) * 2 ^ val := by
      intro b
      rw [hR.mask, shl_and hn hlt.le, ← pow_succ']
      congr 3
      omega
    simp only [hkeep] at hno
    refine iff_of_true (fun x hx y hy => ?_) (.inl hlt)
    have hq : x / 2 ^ val < 2 * 2 ^ (8 * inSize - (val + 1)) :=
      Nat.div_lt_of_lt_mul (by rwa [Nat.mul_comm, ← hM])
    rw [intSright_value hi hx hlt, Option.some.injEq] at hy
    have hle : 2 * 2 ^ (8 * inSize - (val + 1)) ≤ 2 ^ (8 * inSize) := by
      rw [hM]
      exact Nat.le_mul_of_pos_right _ hP
    have hd : 2 * 2 ^ (8 * inSize - (val + 1)) ∣ 2 ^ (8 * inSize) := ⟨2 ^ val, hM⟩
    rw [hRc, ← hy]
    generalize 2 ^ (8 * inSize - (val + 1)) = K at *
    generalize 2 ^ (8 * inSize) = M at *
    have hlow : ∀ b ≤ K, b % (2 * K) = b := fun b hb => Nat.mod_eq_of_lt (by omega)
    have hhigh : ∀ b < M, M - K ≤ b → b % (2 * K) = b + 2 * K - M := by
      intro b hb hge
      have hd' : 2 * K ∣ M - 2 * K := Nat.dvd_sub hd dvd_rfl
      conv_lhs => rw [show b = M - 2 * K + (b + 2 * K - M) by omega]
      rw [Nat.add_mod, Nat.mod_eq_zero_of_dvd hd', Nat.zero_add, Nat.mod_mod,
        Nat.mod_eq_of_lt (by omega)]
    by_cases ha : (K ≤ R.left ∧ R.left ≤ M - K ∧ K ≤ R.right ∧ R.right ≤ M - K ∧
        R.right ≤ R.left) ∨ R.left = R.right
    · rw [hall ha]
      refine iff_of_true (hfull x) ?_
      generalize x / 2 ^ val = q at hq
      unfold Mem
      split_ifs <;> omega
    · have h1 : (if K < R.left ∧ R.left < M - K then K else R.left) % (2 * K) =
          if R.left ≤ K then R.left else if R.left < M - K then K else R.left + 2 * K - M := by
        rcases Nat.lt_or_ge K R.left with h | h
        · rcases Nat.lt_or_ge R.left (M - K) with h' | h'
          · rw [if_pos ⟨h, h'⟩, if_neg (by omega), if_pos h', hlow K le_rfl]
          · rw [if_neg (by omega), if_neg (by omega), if_neg (by omega), hhigh _ hl h']
        · rw [if_neg (by omega), if_pos h, hlow _ h]
      have h2 : (if K < R.right ∧ R.right < M - K then M - K else R.right) % (2 * K) =
          if R.right ≤ K then R.right else if R.right < M - K then K else R.right + 2 * K - M := by
        rcases Nat.lt_or_ge K R.right with h | h
        · rcases Nat.lt_or_ge R.right (M - K) with h' | h'
          · rw [if_pos ⟨h, h'⟩, if_neg (by omega), if_pos h', hhigh _ (by omega) le_rfl]
            omega
          · rw [if_neg (by omega), if_neg (by omega), if_neg (by omega), hhigh _ hr h']
        · rw [if_neg (by omega), if_pos h, hlow _ h]
      rw [hno ha, containsVal_cut hs he, mem_mul hP, Ne, Nat.mul_left_inj hP.ne', h1, h2]
      generalize x / 2 ^ val = q at hq
      unfold Mem
      split_ifs <;> omega
  · -- every result is the sign
    have hM : 2 ^ 8 ≤ 2 ^ (8 * inSize) := Nat.pow_le_pow_right two_pos (by omega)
    rw [show 8 * inSize - (val + 1) = 0 by omega, Nat.pow_zero] at hall hno
    simp only [hR.mask, shl_and_eq_zero hn hge] at hno
    rw [or_iff_right (by omega), hRc, hRc]
    have hval : ∀ x < 2 ^ (8 * inSize), withConstant .intSright val 0 inSize inSize x =
        some (if 2 * x < 2 ^ (8 * inSize) then 0 else 2 ^ (8 * inSize) - 1) := by
      intro x hx
      have hz : ∀ z < 2 ^ (8 * inSize), z >>> (8 * inSize) = 0 := fun z hz => by
        rw [Nat.shiftRight_eq_div_pow, Nat.div_eq_of_lt hz]
      simp only [withConstant, if_true, evalBinary, Option.some.injEq]
      rw [min_eq_right hge, Signed.sshiftRight_ofNat (by omega) hx, hz x hx, hz _ (by omega),
        Nat.sub_zero]
    by_cases ha : (1 ≤ R.left ∧ R.left ≤ 2 ^ (8 * inSize) - 1 ∧ 1 ≤ R.right ∧
        R.right ≤ 2 ^ (8 * inSize) - 1 ∧ R.right ≤ R.left) ∨ R.left = R.right
    · rw [hall ha]
      refine iff_of_true (fun x hx y hy => iff_of_true (hfull x) ?_) ?_
      · rw [hval x hx, Option.some.injEq] at hy
        rw [hRc, ← hy]
        unfold Mem
        split_ifs <;> omega
      · unfold Mem
        omega
    · rw [hno ha]
      have hnone : ∀ x, ¬(R.cut 0 0).containsVal x = true := fun x hx =>
        ((containsVal_cut hs he).mp hx).1 rfl
      constructor
      · intro hex
        have h0 := (hex 0 (by omega) 0 (by rw [hval 0 (by omega), if_pos (by omega)])).not.mp (hnone 0)
        have h1 := (hex (2 ^ (8 * inSize) - 1) (by omega) (2 ^ (8 * inSize) - 1)
          (by rw [hval _ (by omega), if_neg (by omega)])).not.mp (hnone _)
        rw [hRc] at h0 h1
        exact iff_of_false h0 h1
      · intro hiff x hx y hy
        rw [hval x hx, Option.some.injEq] at hy
        refine iff_of_false (hnone x) ?_
        rw [hRc, ← hy]
        unfold Mem at *
        split_ifs <;> omega

/-! Comparisons. -/

theorem containsVal_complement {Y : CircleRange} (hs : Y.step = 1) (v : ℕ) :
    Y.complement.containsVal v = true ↔ ¬Y.containsVal v = true := by
  rw [containsVal_unit hs]
  unfold complement
  by_cases he : Y.isempty = true
  · have hs' : CircleRange.step { Y with left := 0, right := 0, isempty := false } = 1 := hs
    rw [if_pos he, containsVal_unit hs']
    simp [he]
  · have he' : Y.isempty = false := Bool.not_eq_true _ ▸ he
    rw [if_neg he]
    split_ifs with heq
    · rw [containsVal_of_isempty rfl, heq]
      simp [he']
    · have hs' : CircleRange.step { Y with left := Y.right, right := Y.left } = 1 := hs
      rw [containsVal_unit hs', and_iff_right he', and_iff_right he']
      exact mem_swap heq

/-- A test is pulled back exactly unless the range allows both outcomes: `yes` gives the inputs on
which the test is true. -/
theorem pullBackTest_exact_iff {P : ℕ → Prop} [DecidablePred P] {op : ℕ → Option ℕ}
    {yes : CircleRange → Option CircleRange} (hi : 1 ≤ inSize) (hR : R.WellFormed 8)
    (he : R.isempty = false)
    (hop : ∀ x < 2 ^ (8 * inSize), op x = some (decide (P x)).toNat)
    (hyes : ∀ B Y : CircleRange, B.step = 1 → B.mask = maskOf inSize → yes B = some Y →
      Y.step = 1 ∧ (B.isempty = true → Y.isempty = true) ∧
        (B.isempty = false → ∀ x < 2 ^ (8 * inSize),
          (Y.isempty = false ∧ Mem Y.left Y.right x ↔ P x)))
    (h : R.pullBackTest inSize yes = some (true, R')) :
    Preimage R R' inSize op ↔ ¬R.holdsBoth := by
  unfold pullBackTest at h
  unfold holdsBoth
  cases h0 : R.containsVal 0 <;> cases h1 : R.containsVal 1
  · rw [convertToBoolean_of_neither he h0 h1] at h
    obtain ⟨Y, hY, h⟩ := Option.map_eq_some_iff.mp h
    have hl : R.left ≠ 0 := by
      intro hl
      have := hR.containsVal_left he
      rw [hl, h0] at this
      cases this
    dsimp only at h
    rw [if_neg hl] at h
    cases h
    refine iff_of_true (fun x hx y hy => ?_) (fun h => nomatch h.1)
    rw [containsVal_of_isempty ((hyes _ _ rfl rfl hY).2.1 rfl)]
    rw [hop x hx, Option.some.injEq] at hy
    rw [← hy]
    cases decide (P x) <;> simp [h0, h1]
  · rw [convertToBoolean_of_one he h0 h1] at h
    obtain ⟨Y, hY, h⟩ := Option.map_eq_some_iff.mp h
    dsimp only at h
    rw [if_neg one_ne_zero] at h
    cases h
    obtain ⟨hs, _, hmem⟩ := hyes _ _ rfl rfl hY
    refine iff_of_true (fun x hx y hy => ?_) (fun h => nomatch h.1)
    rw [hop x hx, Option.some.injEq] at hy
    rw [containsVal_unit hs, hmem rfl x hx, ← hy]
    by_cases hP : P x <;> simp [hP, h0, h1]
  · rw [convertToBoolean_of_zero he h0 h1] at h
    obtain ⟨Y, hY, h⟩ := Option.map_eq_some_iff.mp h
    dsimp only at h
    rw [if_pos rfl] at h
    cases h
    obtain ⟨hs, _, hmem⟩ := hyes _ _ rfl rfl hY
    refine iff_of_true (fun x hx y hy => ?_) (fun h => nomatch h.2)
    rw [hop x hx, Option.some.injEq] at hy
    rw [containsVal_complement hs, containsVal_unit hs, hmem rfl x hx, ← hy]
    by_cases hP : P x <;> simp [hP, h0, h1]
  · -- the range left is `[0, 2)`, and every input has an allowed outcome
    rw [convertToBoolean_of_both he h0 h1] at h
    cases h
    refine iff_of_false (fun hex => ?_) (fun h => h ⟨rfl, rfl⟩)
    have hlt : 2 < 2 ^ (8 * inSize) :=
      lt_of_lt_of_le (by norm_num) (Nat.pow_le_pow_right two_pos (show 2 ≤ 8 * inSize by omega))
    have hres : R.containsVal (decide (P 2)).toNat = true := by
      cases decide (P 2) <;> simp [h0, h1]
    have := (hex 2 hlt _ (hop 2 hlt)).mpr hres
    rw [containsVal_unit rfl] at this
    simp [Mem] at this

end Mosura.CircleRange
