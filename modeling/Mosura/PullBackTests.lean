import Mosura.PullBackBinary

/-! The comparisons and the carry: the inputs on which each is true form one arc. -/

namespace Mosura.CircleRange
open Arc

variable {R R' : CircleRange} {opc : OpCode} {val slot inSize outSize x : ℕ}

/-- The range `Y`, made from `B`, holds the inputs on which `P` is true. -/
def Holds (B Y : CircleRange) (inSize : ℕ) (P : ℕ → Prop) : Prop :=
  Y.step = 1 ∧ (B.isempty = true → Y.isempty = true) ∧
    (B.isempty = false → ∀ x < 2 ^ (8 * inSize), (Y.isempty = false ∧ Mem Y.left Y.right x ↔ P x))

/-- New boundaries in a range of unit step. -/
theorem holds_bounds {B : CircleRange} {l r : ℕ} {P : ℕ → Prop} (hs : B.step = 1)
    (h : ∀ x < 2 ^ (8 * inSize), (Mem l r x ↔ P x)) :
    Holds B { B with left := l, right := r } inSize P :=
  ⟨hs, id, fun he x hx => (and_iff_right he).trans (h x hx)⟩

/-- A test that is never true leaves nothing. -/
theorem holds_empty {B : CircleRange} {P : ℕ → Prop} (hs : B.step = 1)
    (h : ∀ x < 2 ^ (8 * inSize), ¬P x) : Holds B { B with isempty := true } inSize P :=
  ⟨hs, fun _ => rfl, fun _ x hx => iff_of_false (fun hc => nomatch hc.1) (h x hx)⟩

theorem addU64_eq_some {a b z : ℕ} (h : addU64 a b = some z) : z = a + b := by
  unfold addU64 at h
  split_ifs at h
  exact (Option.some.inj h).symm

/-- The boundary between the two signs. -/
theorem half_mask (h8 : inSize ≤ 8) : maskOf inSize >>> 1 = 2 ^ (8 * inSize - 1) - 1 := by
  rw [maskOf_eq h8, ones_shiftRight]

section Tests

variable (hi : 1 ≤ inSize) (h8 : inSize ≤ 8) (hv : val < 2 ^ (8 * inSize)) (hR : R.WellFormed 8)
  (he : R.isempty = false)

include hi h8 hv hR he

theorem intEqual_exact_iff (h : R.pullBackBinary .intEqual val slot inSize = some (true, R')) :
    Preimage R R' inSize (withConstant .intEqual val slot inSize 1) ↔ ¬R.holdsBoth := by
  rw [pullBackBinary, if_neg (by simp [he])] at h
  refine pullBackTest_exact_iff (P := fun x => x = val) hi hR he (fun x hx => ?_)
    (fun B Y hs hm hY => ?_) h
  · unfold withConstant
    split_ifs
    · rfl
    · simp only [evalBinary, Option.some.injEq, eq_comm (a := x)]
      rfl
  · obtain ⟨next, hnext, rfl⟩ := Option.map_eq_some_iff.mp hY
    rw [addU64_eq_some hnext, hm, and_maskOf h8]
    exact holds_bounds hs fun x hx => mem_single (Nat.one_lt_two_pow (by omega)) hv hx

theorem intNotequal_exact_iff
    (h : R.pullBackBinary .intNotequal val slot inSize = some (true, R')) :
    Preimage R R' inSize (withConstant .intNotequal val slot inSize 1) ↔ ¬R.holdsBoth := by
  have hM : 1 < 2 ^ (8 * inSize) := Nat.one_lt_two_pow (by omega)
  rw [pullBackBinary, if_neg (by simp [he])] at h
  refine pullBackTest_exact_iff (P := fun x => x ≠ val) hi hR he (fun x hx => ?_)
    (fun B Y hs hm hY => ?_) h
  · unfold withConstant
    split_ifs
    · simp [evalBinary, bne, BEq.beq]
    · simp [evalBinary, bne, BEq.beq, eq_comm (a := x)]
  · obtain ⟨next, hnext, rfl⟩ := Option.map_eq_some_iff.mp hY
    rw [addU64_eq_some hnext, hm, and_maskOf h8]
    refine holds_bounds hs fun x hx => ?_
    have hne : val ≠ (val + 1) % 2 ^ (8 * inSize) := by
      rcases add_mod_cases hv hM with ⟨_, h⟩ | ⟨_, h⟩ <;> omega
    rw [mem_swap hne, mem_single hM hv hx]

theorem intLess_exact_iff (h : R.pullBackBinary .intLess val slot inSize = some (true, R')) :
    Preimage R R' inSize (withConstant .intLess val slot inSize 1) ↔ ¬R.holdsBoth := by
  have hmask := maskOf_add_one h8
  rw [pullBackBinary, if_neg (by simp [he])] at h
  by_cases hslot : slot = 0
  · simp only [hslot, if_true] at h
    refine pullBackTest_exact_iff (P := fun x => x < val) hi hR he (fun x hx => ?_)
      (fun B Y hs hm hY => ?_) h
    · rw [withConstant, if_pos hslot]
      rfl
    · split_ifs at hY with h0
      · cases hY
        exact holds_empty hs fun x _ => by omega
      · cases hY
        exact holds_bounds hs fun x _ => mem_zero (Nat.pos_of_ne_zero h0)
  · simp only [hslot, if_false] at h
    refine pullBackTest_exact_iff (P := fun x => val < x) hi hR he (fun x hx => ?_)
      (fun B Y hs hm hY => ?_) h
    · rw [withConstant, if_neg hslot]
      rfl
    · rw [hm] at hY
      split_ifs at hY with h0
      · cases hY
        exact holds_empty hs fun x hx => by omega
      · obtain ⟨next, hnext, rfl⟩ := Option.map_eq_some_iff.mp hY
        rw [addU64_eq_some hnext, and_maskOf h8, Nat.mod_eq_of_lt (by omega)]
        exact holds_bounds hs fun x _ => mem_to_zero (Nat.succ_pos val)

theorem intLessequal_exact_iff
    (h : R.pullBackBinary .intLessequal val slot inSize = some (true, R')) :
    Preimage R R' inSize (withConstant .intLessequal val slot inSize 1) ↔ ¬R.holdsBoth := by
  rw [pullBackBinary, if_neg (by simp [he])] at h
  by_cases hslot : slot = 0
  · simp only [hslot, if_true] at h
    refine pullBackTest_exact_iff (P := fun x => x ≤ val) hi hR he (fun x hx => ?_)
      (fun B Y hs hm hY => ?_) h
    · rw [withConstant, if_pos hslot]
      rfl
    · obtain ⟨next, hnext, rfl⟩ := Option.map_eq_some_iff.mp hY
      rw [addU64_eq_some hnext, hm, and_maskOf h8]
      refine holds_bounds hs fun x hx => ?_
      rcases Nat.lt_or_ge (val + 1) (2 ^ (8 * inSize)) with hlt | hge
      · rw [Nat.mod_eq_of_lt hlt, mem_zero (Nat.succ_pos val), Nat.lt_succ_iff]
      · rw [show val + 1 = 2 ^ (8 * inSize) by omega, Nat.mod_self]
        exact iff_of_true mem_full (by omega)
  · simp only [hslot, if_false] at h
    refine pullBackTest_exact_iff (P := fun x => val ≤ x) hi hR he (fun x hx => ?_)
      (fun B Y hs hm hY => ?_) h
    · rw [withConstant, if_neg hslot]
      rfl
    · cases hY
      refine holds_bounds hs fun x _ => ?_
      unfold Mem
      omega

theorem intSless_exact_iff (h : R.pullBackBinary .intSless val slot inSize = some (true, R')) :
    Preimage R R' inSize (withConstant .intSless val slot inSize 1) ↔ ¬R.holdsBoth := by
  have hhalf := Signed.two_pow_half (show 0 < 8 * inSize by omega)
  have hH : 0 < 2 ^ (8 * inSize - 1) := Nat.two_pow_pos _
  rw [pullBackBinary, if_neg (by simp [he])] at h
  by_cases hslot : slot = 0
  · simp only [hslot, if_true] at h
    refine pullBackTest_exact_iff
      (P := fun x => Signed.toInt (8 * inSize) x < Signed.toInt (8 * inSize) val) hi hR he
      (fun x hx => ?_) (fun B Y hs hm hY => ?_) h
    · rw [withConstant, if_pos hslot]
      simp only [evalBinary, Signed.slt_ofNat hx hv]
    · obtain ⟨low, hlow, hY⟩ := Option.bind_eq_some_iff.mp hY
      have hlow := addU64_eq_some hlow
      rw [hm, half_mask h8, Nat.sub_add_cancel hH] at hlow
      subst hlow
      split_ifs at hY with h0
      · cases hY
        refine holds_empty hs fun x hx => ?_
        unfold Signed.toInt
        split_ifs <;> omega
      · cases hY
        refine holds_bounds hs fun x hx => ?_
        unfold Signed.toInt Mem
        split_ifs <;> omega
  · simp only [hslot, if_false] at h
    refine pullBackTest_exact_iff
      (P := fun x => Signed.toInt (8 * inSize) val < Signed.toInt (8 * inSize) x) hi hR he
      (fun x hx => ?_) (fun B Y hs hm hY => ?_) h
    · rw [withConstant, if_neg hslot]
      simp only [evalBinary, Signed.slt_ofNat hv hx]
    · obtain ⟨low, hlow, hY⟩ := Option.bind_eq_some_iff.mp hY
      have hlow := addU64_eq_some hlow
      rw [hm, half_mask h8, Nat.sub_add_cancel hH] at hlow
      subst hlow
      rw [hm, half_mask h8] at hY
      split_ifs at hY with h0
      · cases hY
        refine holds_empty hs fun x hx => ?_
        unfold Signed.toInt
        split_ifs <;> omega
      · obtain ⟨next, hnext, rfl⟩ := Option.map_eq_some_iff.mp hY
        rw [addU64_eq_some hnext, and_maskOf h8]
        refine holds_bounds hs fun x hx => ?_
        rcases Nat.lt_or_ge (val + 1) (2 ^ (8 * inSize)) with hlt | hge
        · rw [Nat.mod_eq_of_lt hlt]
          unfold Signed.toInt Mem
          split_ifs <;> omega
        · rw [show val + 1 = 2 ^ (8 * inSize) by omega, Nat.mod_self]
          unfold Signed.toInt Mem
          split_ifs <;> omega

theorem intSlessequal_exact_iff
    (h : R.pullBackBinary .intSlessequal val slot inSize = some (true, R')) :
    Preimage R R' inSize (withConstant .intSlessequal val slot inSize 1) ↔ ¬R.holdsBoth := by
  have hhalf := Signed.two_pow_half (show 0 < 8 * inSize by omega)
  have hH : 0 < 2 ^ (8 * inSize - 1) := Nat.two_pow_pos _
  rw [pullBackBinary, if_neg (by simp [he])] at h
  by_cases hslot : slot = 0
  · simp only [hslot, if_true] at h
    refine pullBackTest_exact_iff
      (P := fun x => Signed.toInt (8 * inSize) x ≤ Signed.toInt (8 * inSize) val) hi hR he
      (fun x hx => ?_) (fun B Y hs hm hY => ?_) h
    · rw [withConstant, if_pos hslot]
      simp only [evalBinary, Signed.sle_ofNat hx hv]
    · obtain ⟨low, hlow, hY⟩ := Option.bind_eq_some_iff.mp hY
      have hlow := addU64_eq_some hlow
      rw [hm, half_mask h8, Nat.sub_add_cancel hH] at hlow
      subst hlow
      obtain ⟨next, hnext, rfl⟩ := Option.map_eq_some_iff.mp hY
      rw [addU64_eq_some hnext, hm, and_maskOf h8]
      refine holds_bounds hs fun x hx => ?_
      rcases Nat.lt_or_ge (val + 1) (2 ^ (8 * inSize)) with hlt | hge
      · rw [Nat.mod_eq_of_lt hlt]
        unfold Signed.toInt Mem
        split_ifs <;> omega
      · rw [show val + 1 = 2 ^ (8 * inSize) by omega, Nat.mod_self]
        unfold Signed.toInt Mem
        split_ifs <;> omega
  · simp only [hslot, if_false] at h
    refine pullBackTest_exact_iff
      (P := fun x => Signed.toInt (8 * inSize) val ≤ Signed.toInt (8 * inSize) x) hi hR he
      (fun x hx => ?_) (fun B Y hs hm hY => ?_) h
    · rw [withConstant, if_neg hslot]
      simp only [evalBinary, Signed.sle_ofNat hv hx]
    · obtain ⟨low, hlow, hY⟩ := Option.bind_eq_some_iff.mp hY
      have hlow := addU64_eq_some hlow
      rw [hm, half_mask h8, Nat.sub_add_cancel hH] at hlow
      subst hlow
      cases hY
      refine holds_bounds hs fun x hx => ?_
      unfold Signed.toInt Mem
      split_ifs <;> omega

theorem intCarry_exact_iff (h : R.pullBackBinary .intCarry val slot inSize = some (true, R')) :
    Preimage R R' inSize (withConstant .intCarry val slot inSize 1) ↔ ¬R.holdsBoth := by
  have hmask := maskOf_add_one h8
  have hn : 8 * inSize ≤ 64 := by omega
  rw [pullBackBinary, if_neg (by simp [he])] at h
  refine pullBackTest_exact_iff (P := fun x => 2 ^ (8 * inSize) ≤ x + val) hi hR he (fun x hx => ?_)
    (fun B Y hs hm hY => ?_) h
  · unfold withConstant
    split_ifs
    · rfl
    · simp only [evalBinary, Nat.add_comm val]
  · split_ifs at hY with h0
    · cases hY
      exact holds_empty hs fun x _ => by omega
    · obtain ⟨gap, hgap, rfl⟩ := Option.map_eq_some_iff.mp hY
      have hgap : gap = maskOf inSize - val := by
        unfold subU64 at hgap
        split_ifs at hgap
        rw [← hm]
        exact (Option.some.inj hgap).symm
      rw [hgap, hm, maskOf_eq h8, wrappingAdd_and hn, ← maskOf_eq h8]
      refine holds_bounds hs fun x hx => ?_
      rw [show maskOf inSize - val + 1 = 2 ^ (8 * inSize) - val by omega,
        Nat.mod_eq_of_lt (by omega), mem_to_zero (by omega)]
      omega

end Tests

/-- A binary op is pulled back exactly on these inputs and no others. -/
theorem pullBackBinary_exact_iff (hi : 1 ≤ inSize) (h8 : inSize ≤ 8)
    (hs : sizesOk opc [inSize, inSize] outSize) (hv : val < 2 ^ 64)
    (hfit : opc ≠ .intRight → opc ≠ .intSright → val < 2 ^ (8 * inSize))
    (hR : R.WellFormed (8 * outSize))
    (h : R.pullBackBinary opc val slot inSize = some (true, R')) :
    Preimage R R' inSize (withConstant opc val slot inSize outSize) ↔
      BinaryExactWhen R val slot inSize opc := by
  cases he : R.isempty with
  | true =>
    rw [pullBackBinary_of_isempty he] at h
    cases h
    refine iff_of_true (preimage_of_isempty he) ?_
    have hnone : ¬R.holdsBoth := fun hb => by
      have h0 := hb.1
      rw [containsVal_of_isempty he] at h0
      cases h0
    unfold BinaryExactWhen
    split
    all_goals first | exact hnone | skip
    · exact .inr (.inl he)
    · exact .inr (.inl he)
    · rw [containsVal_of_isempty he, containsVal_of_isempty he]
      exact .inr Iff.rfl
    · trivial
  | false =>
    cases opc
    case intEqual =>
      obtain ⟨_, rfl⟩ := hs
      exact intEqual_exact_iff hi h8 (hfit (by decide) (by decide)) hR he h
    case intNotequal =>
      obtain ⟨_, rfl⟩ := hs
      exact intNotequal_exact_iff hi h8 (hfit (by decide) (by decide)) hR he h
    case intLess =>
      obtain ⟨_, rfl⟩ := hs
      exact intLess_exact_iff hi h8 (hfit (by decide) (by decide)) hR he h
    case intLessequal =>
      obtain ⟨_, rfl⟩ := hs
      exact intLessequal_exact_iff hi h8 (hfit (by decide) (by decide)) hR he h
    case intSless =>
      obtain ⟨_, rfl⟩ := hs
      exact intSless_exact_iff hi h8 (hfit (by decide) (by decide)) hR he h
    case intSlessequal =>
      obtain ⟨_, rfl⟩ := hs
      exact intSlessequal_exact_iff hi h8 (hfit (by decide) (by decide)) hR he h
    case intCarry =>
      obtain ⟨_, rfl⟩ := hs
      exact intCarry_exact_iff hi h8 (hfit (by decide) (by decide)) hR he h
    case intAdd =>
      obtain ⟨rfl, _⟩ : inSize = outSize ∧ inSize = outSize := by simpa [sizesOk] using hs
      exact iff_of_true (intAdd_exact h8 hv hR he h) trivial
    case intSub =>
      obtain ⟨rfl, _⟩ : inSize = outSize ∧ inSize = outSize := by simpa [sizesOk] using hs
      simp only [BinaryExactWhen, he, Bool.false_eq_true, false_or]
      by_cases hslot : slot = 0
      · subst hslot
        exact iff_of_true (intSub_first_exact h8 (hfit (by decide) (by decide)) hR he h) (.inl rfl)
      · rw [or_iff_right hslot]
        exact intSub_second_exact_iff h8 (hfit (by decide) (by decide)) hslot hR he h
    case intRight =>
      obtain rfl : inSize = outSize := by simpa [sizesOk] using hs
      simp only [BinaryExactWhen, he, Bool.false_eq_true, false_or]
      exact intRight_exact_iff h8 hR he h
    case intSright =>
      obtain rfl : inSize = outSize := by simpa [sizesOk] using hs
      exact intSright_exact_iff hi h8 hR he h
    all_goals simp [pullBackBinary, he] at h

/-! Both kinds of op together. -/

/-- An op a range is pulled back through, from its output to the variable input. -/
inductive PulledOp
  | unary (opc : OpCode) (inSize outSize : ℕ)
  | binary (opc : OpCode) (val slot inSize outSize : ℕ)

namespace PulledOp

def inBytes : PulledOp → ℕ
  | .unary _ inSize _ => inSize
  | .binary _ _ _ inSize _ => inSize

def outBytes : PulledOp → ℕ
  | .unary _ _ outSize => outSize
  | .binary _ _ _ _ outSize => outSize

/-- The value of the op on an input. -/
def value : PulledOp → ℕ → Option ℕ
  | .unary opc inSize outSize => evalUnary opc inSize outSize
  | .binary opc val slot inSize outSize => withConstant opc val slot inSize outSize

/-- `pull_back_unary` or `pull_back_binary`. -/
def pullBack (R : CircleRange) : PulledOp → Option (Bool × CircleRange)
  | .unary opc inSize outSize => R.pullBackUnary opc inSize outSize
  | .binary opc val slot inSize _ => R.pullBackBinary opc val slot inSize

/-- Sizes of 1 to 8 bytes that fit the op, and a constant that fits its operand; a shift amount is
any word. -/
def Valid : PulledOp → Prop
  | .unary opc inSize outSize => 1 ≤ inSize ∧ outSize ≤ 8 ∧ sizesOk opc [inSize] outSize
  | .binary opc val _ inSize outSize => 1 ≤ inSize ∧ inSize ≤ 8 ∧
    sizesOk opc [inSize, inSize] outSize ∧ val < 2 ^ 64 ∧
    (opc ≠ .intRight → opc ≠ .intSright → val < 2 ^ (8 * inSize))

/-- The inputs on which the pull-back is exact. -/
def ExactWhen (R : CircleRange) : PulledOp → Prop
  | .unary opc inSize outSize => UnaryExactWhen R inSize outSize opc
  | .binary opc val slot inSize _ => BinaryExactWhen R val slot inSize opc

end PulledOp

/-- A pull-back that forms a range forms the exact preimage on these inputs and no others. -/
theorem pullBack_exact_iff (p : PulledOp) (hp : p.Valid) (hR : R.WellFormed (8 * p.outBytes))
    (h : p.pullBack R = some (true, R')) :
    Preimage R R' p.inBytes p.value ↔ p.ExactWhen R := by
  cases p with
  | unary opc inSize outSize =>
    obtain ⟨hi, h8, hs⟩ := hp
    exact pullBackUnary_exact_iff hi h8 hs hR h
  | binary opc val slot inSize outSize =>
    obtain ⟨hi, h8, hs, hv, hfit⟩ := hp
    exact pullBackBinary_exact_iff hi h8 hs hv hfit hR h

/-- The boolean range `[0, 2)` pulled back through `x < 8` on four bytes. -/
theorem pullBack_exact_iff_less :
    Preimage { left := 0, right := 2, mask := 255, isempty := false, step := 1 }
      { left := 0, right := 2, mask := 2 ^ 32 - 1, isempty := false, step := 1 } 4
      (PulledOp.value (.binary .intLess 8 0 4 1)) ↔
    PulledOp.ExactWhen { left := 0, right := 2, mask := 255, isempty := false, step := 1 }
      (.binary .intLess 8 0 4 1) :=
  pullBack_exact_iff (.binary .intLess 8 0 4 1)
    ⟨by decide, by decide, ⟨⟨4, rfl⟩, rfl⟩, by decide, fun _ _ => by decide⟩
    ⟨by decide, by decide, by decide, ⟨0, by decide, rfl⟩, by decide⟩ (by decide)

/-- Both outcomes of `x < 8` are allowed, and the range left is `[0, 2)`. -/
theorem pullBack_loses_values : ¬∀ (p : PulledOp) (R R' : CircleRange), p.Valid →
    R.WellFormed (8 * p.outBytes) → p.pullBack R = some (true, R') →
    Preimage R R' p.inBytes p.value := by
  intro h
  have hex := h (.binary .intLess 8 0 4 1)
    { left := 0, right := 2, mask := 255, isempty := false, step := 1 }
    { left := 0, right := 2, mask := 2 ^ 32 - 1, isempty := false, step := 1 }
    ⟨by decide, by decide, ⟨⟨4, rfl⟩, rfl⟩, by decide, fun _ _ => by decide⟩
    ⟨by decide, by decide, by decide, ⟨0, by decide, rfl⟩, by decide⟩ (by decide)
  exact absurd ((hex 5 (by decide) 1 (by decide)).mpr (by decide)) (by decide)

end Mosura.CircleRange
