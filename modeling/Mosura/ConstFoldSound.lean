import Mosura.ConstFold

/-! When folding a constant gives what p-code and the interpreter give. -/

namespace Mosura
namespace Rules

theorem mask_toNat (v : U64) (s : ℕ) : (mask v s).toNat = v.toNat % 2 ^ (8 * s) := by
  unfold mask
  split_ifs with h
  · exact (Nat.mod_eq_of_lt (v.isLt.trans_le (Nat.pow_le_pow_right two_pos (by omega)))).symm
  · have hlt : (2 : ℕ) ^ (8 * s) < 2 ^ 64 := Nat.pow_lt_pow_right (by norm_num) (by omega)
    have hpos := Nat.two_pow_pos (8 * s)
    have hone : (1#64 <<< (8 * s)).toNat = 2 ^ (8 * s) := by
      rw [BitVec.toNat_shiftLeft, Nat.shiftLeft_eq]
      exact (Nat.mod_eq_of_lt (by simpa using hlt)).trans (by simp)
    have hsub : ((1#64 <<< (8 * s)) - 1#64).toNat = 2 ^ (8 * s) - 1 := by
      rw [BitVec.toNat_sub_of_le (by rw [BitVec.le_def, hone]; exact hpos), hone]
      rfl
    rw [BitVec.toNat_and, hsub, Nat.and_two_pow_sub_one_eq_mod]

theorem mask_lt (v : U64) (s : ℕ) : (mask v s).toNat < 2 ^ (8 * s) := by
  rw [mask_toNat]
  exact Nat.mod_lt _ (Nat.two_pow_pos _)

/-- The masked word is the low bytes of the word. -/
theorem mask_toNat_setWidth (v : U64) (s : ℕ) : (mask v s).toNat = (v.setWidth (8 * s)).toNat := by
  rw [mask_toNat, BitVec.toNat_setWidth]

theorem ofNat_mask (v : U64) (s : ℕ) : BitVec.ofNat (8 * s) (mask v s).toNat = v.setWidth (8 * s) := by
  apply BitVec.eq_of_toNat_eq
  rw [BitVec.toNat_ofNat, mask_toNat, Nat.mod_mod, BitVec.toNat_setWidth]

theorem sext_eq (v : U64) {s : ℕ} (h0 : 0 < s) (h8 : s ≤ 8) :
    sext v s = (v.setWidth (8 * s)).signExtend 64 := by
  unfold sext
  split_ifs with h
  · obtain rfl : s = 8 := by omega
    change v = (v.setWidth 64).signExtend 64
    rw [BitVec.setWidth_eq, BitVec.signExtend_eq]
  · apply BitVec.eq_of_getLsbD_eq
    intro i hi
    rw [BitVec.getLsbD_sshiftRight, BitVec.getLsbD_signExtend, BitVec.msb_eq_getLsbD_last,
      BitVec.msb_eq_getLsbD_last, BitVec.getLsbD_shiftLeft, BitVec.getLsbD_shiftLeft,
      BitVec.getLsbD_setWidth, BitVec.getLsbD_setWidth]
    have h1 : 64 - 1 - (64 - 8 * s) = 8 * s - 1 := by omega
    rw [h1]
    by_cases hs : i < 8 * s
    · have h2 : 64 - 8 * s + i - (64 - 8 * s) = i := by omega
      have h3 : 64 - 8 * s + i < 64 := by omega
      simp [hi, hs, h2, h3]
    · have h3 : ¬ 64 - 8 * s + i < 64 := by omega
      have h4 : 8 * s - 1 < 8 * s := by omega
      have h5 : ¬ 63 < 64 - 8 * s := by omega
      simp [hi, hs, h3, h4, h5]

end Rules

namespace Emu

theorem mask_eq (v : U64) {s : ℕ} (h0 : 0 < s) : mask v s = Rules.mask v s := by
  unfold mask Rules.mask
  rw [Nat.mul_comm s 8]
  by_cases h : 8 ≤ s
  · rw [if_pos (.inl h), if_pos h]
  · rw [if_neg (by omega), if_neg h]

theorem two_pow_xor_of_lt {y k : ℕ} (h : y < 2 ^ k) : 2 ^ k ^^^ y = 2 ^ k + y := by
  have hor : 2 ^ k ||| y = 2 ^ k + y := by
    simpa only [mul_one] using (Nat.two_pow_add_eq_or_of_lt h 1).symm
  rw [← hor]
  apply Nat.eq_of_testBit_eq
  intro i
  rw [Nat.testBit_xor, Nat.testBit_or, Nat.testBit_two_pow]
  by_cases hi : k = i
  · subst hi
    rw [Nat.testBit_lt_two_pow h]
    simp
  · simp [hi]

/-- Both ways to extend the sign give the same word. -/
theorem sext_eq (v : U64) {s : ℕ} (h0 : 0 < s) (h8 : s ≤ 8) : sext v s = Rules.sext v s := by
  rw [Rules.sext_eq v h0 h8]
  unfold sext
  split_ifs with h
  · obtain rfl : s = 8 := by omega
    change v = (v.setWidth 64).signExtend 64
    rw [BitVec.setWidth_eq, BitVec.signExtend_eq]
  simp only []
  have hs : 8 * s < 64 := by omega
  have hsign : (1#64 <<< (s * 8 - 1)).toNat = 2 ^ (8 * s - 1) := by
    rw [BitVec.toNat_shiftLeft, Nat.shiftLeft_eq, Nat.mul_comm s 8]
    refine (Nat.mod_eq_of_lt ?_).trans (by simp)
    simpa using Nat.pow_lt_pow_right (a := 2) (by norm_num) (show 8 * s - 1 < 64 by omega)
  have hw : (2 : ℕ) ^ (8 * s) = 2 ^ (8 * s - 1) + 2 ^ (8 * s - 1) := by
    rw [← two_mul, ← Nat.pow_succ', Nat.succ_eq_add_one, show 8 * s - 1 + 1 = 8 * s by omega]
  have hlt64 : (2 : ℕ) ^ (8 * s) ≤ 2 ^ 64 := Nat.pow_le_pow_right two_pos hs.le
  have hx : (mask v s).toNat = (v.setWidth (8 * s)).toNat := by
    rw [mask_eq v h0, Rules.mask_toNat_setWidth]
  have hxlt := (v.setWidth (8 * s)).isLt
  have hsw : ((v.setWidth (8 * s)).setWidth 64).toNat = (v.setWidth (8 * s)).toNat := by
    rw [BitVec.toNat_setWidth]
    exact Nat.mod_eq_of_lt (hxlt.trans_le hlt64)
  apply BitVec.eq_of_toNat_eq
  rw [BitVec.toNat_signExtend, hsw, BitVec.toNat_sub, BitVec.toNat_xor, hx, hsign, BitVec.msb_eq_decide]
  -- by the sign bit: adding and taking away the sign, or dropping it and going below 0
  by_cases hneg : 2 ^ (8 * s - 1) ≤ (v.setWidth (8 * s)).toNat
  · obtain ⟨y, hy⟩ := Nat.exists_eq_add_of_le hneg
    have hylt : y < 2 ^ (8 * s - 1) := by omega
    rw [if_pos (decide_eq_true hneg), hy, ← two_pow_xor_of_lt hylt, Nat.xor_right_comm,
      Nat.xor_self, Nat.zero_xor, two_pow_xor_of_lt hylt]
    rw [Nat.mod_eq_of_lt (by omega)]
    omega
  · rw [not_le] at hneg
    rw [if_neg (by simpa using hneg), Nat.xor_comm, two_pow_xor_of_lt hneg, Nat.add_zero,
      show 2 ^ 64 - 2 ^ (8 * s - 1) + (2 ^ (8 * s - 1) + (v.setWidth (8 * s)).toNat) =
        (v.setWidth (8 * s)).toNat + 2 ^ 64 by omega, Nat.add_mod_right]
    exact Nat.mod_eq_of_lt (hxlt.trans_le hlt64)

end Emu

namespace Rules

/-- The opcodes whose constants always fold to their p-code value. -/
def foldsExactly (code : OpCode) : Bool :=
  foldsInteger code && !(code == .intLeft || code == .intRight || code == .intSright ||
    code == .subpiece || code == .lzcount)

section Exact

variable {v₀ v₁ : U64} {s so : ℕ} {fold : OpCode → List (U64 × ℕ) → ℕ → U64}

theorem mask_toNat_of_lt {r : U64} (h : r.toNat < 2 ^ (8 * so)) : (mask r so).toNat = r.toNat := by
  rw [mask_toNat, Nat.mod_eq_of_lt h]

theorem mask_ofBool (b : Bool) (h : 0 < so) : (mask (ofBool b) so).toNat = b.toNat := by
  have hb : (ofBool b).toNat = b.toNat := by cases b <;> rfl
  rw [mask_toNat_of_lt (hb ▸ toNat_lt_pow_bytes b h), hb]

theorem bitCount_of_lt {n k v : ℕ} (hv : v < 2 ^ n) : bitCount (n + k) v = bitCount n v := by
  rw [bitCount_add, Nat.shiftRight_eq_div_pow, Nat.div_eq_of_lt hv]
  have h0 : bitCount k 0 = 0 := by simp [bitCount]
  rw [h0, Nat.add_zero]

theorem bool_cases {n : ℕ} (h : n ≤ 1) : n = 0 ∨ n = 1 := by omega

theorem evalConst_unary {code : OpCode} (hc : foldsExactly code = true) (hs : sizesOk code [s] so)
    (h0 : 0 < s) (h8 : s ≤ 8) (hso0 : 0 < so) (hso : so ≤ 8) {r : ℕ}
    (hr : evalUnary code s so (mask v₀ s).toNat = some r) :
    ∃ w, evalConst fold code [(v₀, s)] so = some w ∧ w.toNat = r := by
  have hx := mask_lt v₀ s
  have hn : 8 * so ≤ 64 := by omega
  cases code
  case copy =>
    obtain rfl : s = so := by simpa [sizesOk] using hs
    cases hr
    exact ⟨_, rfl, mask_toNat_of_lt hx⟩
  case intZext =>
    obtain ⟨_, he, hlt⟩ := hs
    obtain rfl := (List.cons.inj he).1
    cases hr
    exact ⟨_, rfl, mask_toNat_of_lt (hx.trans_le (Nat.pow_le_pow_right two_pos (by omega)))⟩
  case intSext =>
    obtain ⟨_, he, hlt⟩ := hs
    obtain rfl := (List.cons.inj he).1
    cases hr
    refine ⟨_, rfl, ?_⟩
    change (mask (sext v₀ s) so).toNat = _
    rw [ofNat_mask, mask_toNat_setWidth, sext_eq v₀ h0 h8]
    congr 1
    apply BitVec.eq_of_getLsbD_eq
    intro i hi
    rw [BitVec.getLsbD_setWidth, BitVec.getLsbD_signExtend, BitVec.getLsbD_signExtend]
    have h64 : i < 64 := by omega
    simp [hi, h64]
  case intNegate =>
    obtain rfl : s = so := by simpa [sizesOk] using hs
    cases hr
    refine ⟨_, rfl, ?_⟩
    change (mask (~~~ mask v₀ s) s).toNat = _
    rw [mask_toNat_setWidth, BitVec.setWidth_not hn, ofNat_mask]
    congr 2
    apply BitVec.eq_of_toNat_eq
    rw [BitVec.toNat_setWidth, mask_toNat, Nat.mod_mod, BitVec.toNat_setWidth]
  case int2comp =>
    obtain rfl : s = so := by simpa [sizesOk] using hs
    cases hr
    refine ⟨_, rfl, ?_⟩
    change (mask (- mask v₀ s) s).toNat = _
    rw [mask_toNat_setWidth, BitVec.setWidth_neg_of_le hn, ofNat_mask]
    congr 2
    apply BitVec.eq_of_toNat_eq
    rw [BitVec.toNat_setWidth, mask_toNat, Nat.mod_mod, BitVec.toNat_setWidth]
  case boolNegate =>
    simp only [evalUnary, Option.ite_none_right_eq_some, Option.some.injEq] at hr
    refine ⟨_, rfl, ?_⟩
    change (mask (ofBool (mask v₀ s == 0)) so).toNat = r
    rw [mask_ofBool _ hso0, ← hr.2]
    rcases bool_cases hr.1 with h | h
    · rw [BitVec.eq_of_toNat_eq (y := 0) h]
      rfl
    · rw [BitVec.eq_of_toNat_eq (y := 1) h]
      rfl
  case popcount =>
    cases hr
    refine ⟨_, rfl, ?_⟩
    change (mask (BitVec.ofNat 64 (bitCount 64 (mask v₀ s).toNat)) so).toNat = _
    have hle := bitCount_le 64 (mask v₀ s).toNat
    have hcount := @bitCount_of_lt (8 * s) (64 - 8 * s) _ hx
    rw [show 8 * s + (64 - 8 * s) = 64 by omega] at hcount
    rw [mask_toNat, BitVec.toNat_ofNat, Nat.mod_eq_of_lt (a := bitCount 64 _) (by omega), hcount]
  all_goals first | (cases hr; done) | cases hc

theorem evalConst_binary {code : OpCode} {s' : ℕ} (hc : foldsExactly code = true)
    (hs : sizesOk code [s, s'] so) (h0 : 0 < s) (h8 : s ≤ 8) (hso0 : 0 < so) (hso : so ≤ 8) {r : ℕ}
    (hr : evalBinary code s s' so (mask v₀ s).toNat (mask v₁ s').toNat = some r) :
    ∃ w, evalConst fold code [(v₀, s), (v₁, s')] so = some w ∧ w.toNat = r := by
  have hx := mask_lt v₀ s
  have hy := mask_lt v₁ s'
  have hn : 8 * so ≤ 64 := by omega
  have hdvd : 2 ^ (8 * so) ∣ 2 ^ 64 := pow_dvd_pow 2 hn
  have hslt : ∀ v : U64, (sext v s).toInt = (v.setWidth (8 * s)).toInt := fun v => by
    rw [sext_eq v h0 h8, BitVec.toInt_signExtend_of_le (by omega)]
  cases code
  case intEqual =>
    cases hr
    refine ⟨_, rfl, (mask_ofBool _ hso0).trans ?_⟩
    congr 1
    rw [Bool.eq_iff_iff, beq_iff_eq, beq_iff_eq]
    exact ⟨congrArg _, BitVec.eq_of_toNat_eq⟩
  case intNotequal =>
    cases hr
    refine ⟨_, rfl, (mask_ofBool _ hso0).trans ?_⟩
    congr 1
    rw [Bool.eq_iff_iff, bne_iff_ne, bne_iff_ne]
    exact not_congr ⟨congrArg _, BitVec.eq_of_toNat_eq⟩
  case intLess | intLessequal =>
    cases hr
    exact ⟨_, rfl, mask_ofBool _ hso0⟩
  case intSless =>
    obtain ⟨⟨_, he⟩, -⟩ := hs
    obtain ⟨rfl, he⟩ := List.cons.inj he
    obtain ⟨rfl, -⟩ := List.cons.inj he
    cases hr
    refine ⟨_, rfl, (mask_ofBool _ hso0).trans ?_⟩
    rw [ofNat_mask, ofNat_mask, BitVec.slt_eq_decide, BitVec.slt_eq_decide]
    simp only [List.getElem?_cons_zero, List.getElem?_cons_succ, Option.elim_some, hslt]
  case intSlessequal =>
    obtain ⟨⟨_, he⟩, -⟩ := hs
    obtain ⟨rfl, he⟩ := List.cons.inj he
    obtain ⟨rfl, -⟩ := List.cons.inj he
    cases hr
    refine ⟨_, rfl, (mask_ofBool _ hso0).trans ?_⟩
    rw [ofNat_mask, ofNat_mask, BitVec.sle_eq_decide, BitVec.sle_eq_decide]
    simp only [List.getElem?_cons_zero, List.getElem?_cons_succ, Option.elim_some, hslt]
  case intAdd =>
    cases hr
    refine ⟨_, rfl, (mask_toNat _ _).trans ?_⟩
    change (mask v₀ s + mask v₁ s').toNat % _ = _
    rw [BitVec.toNat_add, Nat.mod_mod_of_dvd _ hdvd]
  case intMult =>
    cases hr
    refine ⟨_, rfl, (mask_toNat _ _).trans ?_⟩
    change (mask v₀ s * mask v₁ s').toNat % _ = _
    rw [BitVec.toNat_mul, Nat.mod_mod_of_dvd _ hdvd]
  case intSub =>
    cases hr
    refine ⟨_, rfl, (mask_toNat_setWidth _ _).trans ?_⟩
    change ((mask v₀ s - mask v₁ s').setWidth (8 * so)).toNat = _
    rw [BitVec.sub_eq_add_neg, BitVec.setWidth_add _ _ hn, BitVec.setWidth_neg_of_le hn,
      BitVec.ofNat_toNat, BitVec.ofNat_toNat, BitVec.sub_eq_add_neg]
  case intXor =>
    obtain ⟨rfl, he⟩ := List.cons.inj hs
    obtain ⟨rfl, -⟩ := List.cons.inj he
    cases hr
    refine ⟨_, rfl, ?_⟩
    exact mask_toNat_of_lt (Nat.xor_lt_two_pow hx hy)
  case intAnd =>
    obtain ⟨rfl, he⟩ := List.cons.inj hs
    obtain ⟨rfl, -⟩ := List.cons.inj he
    cases hr
    refine ⟨_, rfl, ?_⟩
    exact mask_toNat_of_lt (Nat.and_lt_two_pow _ hy)
  case intOr =>
    obtain ⟨rfl, he⟩ := List.cons.inj hs
    obtain ⟨rfl, -⟩ := List.cons.inj he
    cases hr
    refine ⟨_, rfl, ?_⟩
    exact mask_toNat_of_lt (Nat.or_lt_two_pow hx hy)
  case boolXor | boolAnd | boolOr =>
    simp only [evalBinary, Option.ite_none_right_eq_some, Option.some.injEq] at hr
    obtain ⟨⟨hx1, hy1⟩, rfl⟩ := hr
    refine ⟨_, rfl, ?_⟩
    have h1 : (1 : ℕ) < 2 ^ (8 * so) := Nat.one_lt_two_pow (by omega)
    have e0 : ∀ {v : U64} {s : ℕ}, (mask v s).toNat = 0 → mask v s = 0 := fun h =>
      BitVec.eq_of_toNat_eq h
    have e1 : ∀ {v : U64} {s : ℕ}, (mask v s).toNat = 1 → mask v s = 1 := fun h =>
      BitVec.eq_of_toNat_eq h
    rw [mask_toNat_of_lt]
    all_goals
      simp only [List.getElem?_cons_zero, List.getElem?_cons_succ, Option.elim_some]
      rcases bool_cases hx1 with hx' | hx' <;> rcases bool_cases hy1 with hy' | hy'
      all_goals simp [hx', hy', e0, e1, h1]
  all_goals first | (cases hr; done) | cases hc

end Exact

/-- When the folder and an interpreter built with or without overflow checks both give the p-code
value: no condition apart from shifts, SUBPIECE and LZCOUNT. -/
def foldOk (checks : Bool) (code : OpCode) (inputs : List (U64 × ℕ)) (so : ℕ) : Prop :=
  match code, inputs.map fun p => (p.2, (mask p.1 p.2).toNat) with
  | .intLeft, [(_, x), (_, y)] => y < 64 ∨ (x <<< (y % 64)) % 2 ^ (8 * so) = 0
  | .intRight, [(_, x), (_, y)] => y < 64 ∨ x >>> (y % 64) = 0
  | .intSright, [(s, x), (_, y)] =>
    (y < 2 ^ 32 ∨ ∀ i < 8 * s, min (y % 2 ^ 32) 63 ≤ i → x.testBit i = x.testBit (8 * s - 1)) ∧
      (x.testBit (8 * s - 1) = true → 8 * s + min (y % 2 ^ 32) 63 ≤ 64)
  | .subpiece, [(_, x), (_, y)] =>
    y < 8 ∨ checks = false ∧ (x >>> (y * 8 % 64)) % 2 ^ (8 * so) = 0
  | .lzcount, [(s, _)] => s = 8
  | _, _ => True

section Shifts

variable {v₀ v₁ : U64} {s s' so : ℕ}

theorem mask_shiftLeft (X : U64) (k : ℕ) (hso : so ≤ 8) :
    (mask (X <<< k) so).toNat = (X.toNat <<< k) % 2 ^ (8 * so) := by
  rw [mask_toNat, BitVec.toNat_shiftLeft, Nat.mod_mod_of_dvd _ (pow_dvd_pow 2 (by omega))]

theorem shiftLeft_mod_eq_zero (x : ℕ) {k n : ℕ} (h : n ≤ k) : (x <<< k) % 2 ^ n = 0 := by
  rw [Nat.shiftLeft_eq]
  exact Nat.mod_eq_zero_of_dvd ((pow_dvd_pow 2 h).mul_left x)

/-- The p-code value of INT_LEFT, by whether the amount is below 64. -/
theorem intLeft_value (x y : ℕ) (hso : so ≤ 8) :
    (if 8 * so ≤ y then 0 else (x <<< y) % 2 ^ (8 * so)) =
      if y < 64 then (x <<< y) % 2 ^ (8 * so) else 0 := by
  split_ifs with h h'
  · exact (shiftLeft_mod_eq_zero x h).symm
  · rfl
  · rfl
  · omega

theorem intLeft_agrees (X : U64) (y : ℕ) (hso : so ≤ 8) :
    ((mask (checkedShl X (y % 2 ^ 32)) so).toNat =
        (if 8 * so ≤ y then 0 else (X.toNat <<< y) % 2 ^ (8 * so)) ∧
      (mask (X <<< (y % 2 ^ 32 % 64)) so).toNat =
        (if 8 * so ≤ y then 0 else (X.toNat <<< y) % 2 ^ (8 * so))) ↔
      (y < 64 ∨ (X.toNat <<< (y % 64)) % 2 ^ (8 * so) = 0) := by
  rw [intLeft_value _ _ hso, Nat.mod_mod_of_dvd y (by norm_num), mask_shiftLeft X _ hso]
  unfold checkedShl
  by_cases hy : y < 64
  · have h1 : y % 2 ^ 32 = y := Nat.mod_eq_of_lt (by omega)
    rw [h1, Nat.mod_eq_of_lt hy, if_pos hy, if_pos hy, mask_shiftLeft X _ hso]
    simp [hy]
  · rw [if_neg hy]
    refine ⟨fun h => .inr h.2, fun h => ⟨?_, h.resolve_left hy⟩⟩
    have h := h.resolve_left hy
    split_ifs with ht
    · have h1 : y % 2 ^ 32 = y % 64 := by omega
      rw [h1, mask_shiftLeft X _ hso, h]
    · rw [mask_toNat]
      exact Nat.zero_mod _

theorem mask_shiftRight (X : U64) (k : ℕ) (hX : X.toNat < 2 ^ (8 * so)) :
    (mask (X >>> k) so).toNat = X.toNat >>> k := by
  have hlt : (X >>> k).toNat < 2 ^ (8 * so) := by
    rw [BitVec.toNat_ushiftRight]
    exact (Nat.shiftRight_le _ _).trans_lt hX
  rw [mask_toNat_of_lt hlt, BitVec.toNat_ushiftRight]

theorem shiftRight_eq_zero_of_lt {x k n : ℕ} (hx : x < 2 ^ n) (h : n ≤ k) : x >>> k = 0 := by
  rw [Nat.shiftRight_eq_div_pow]
  exact Nat.div_eq_of_lt (hx.trans_le (Nat.pow_le_pow_right two_pos h))

theorem intRight_agrees (X : U64) (y : ℕ) (hso : so ≤ 8) (hX : X.toNat < 2 ^ (8 * so)) :
    ((mask (checkedShr X (y % 2 ^ 32)) so).toNat = (if 8 * so ≤ y then 0 else X.toNat >>> y) ∧
      (mask (X >>> (y % 2 ^ 32 % 64)) so).toNat = (if 8 * so ≤ y then 0 else X.toNat >>> y)) ↔
      (y < 64 ∨ X.toNat >>> (y % 64) = 0) := by
  have hval : (if 8 * so ≤ y then 0 else X.toNat >>> y) = if y < 64 then X.toNat >>> y else 0 := by
    split_ifs with h h'
    · exact (shiftRight_eq_zero_of_lt hX h).symm
    · rfl
    · rfl
    · omega
  rw [hval, Nat.mod_mod_of_dvd y (by norm_num), mask_shiftRight X _ hX]
  unfold checkedShr
  by_cases hy : y < 64
  · have h1 : y % 2 ^ 32 = y := Nat.mod_eq_of_lt (by omega)
    rw [h1, Nat.mod_eq_of_lt hy, if_pos hy, if_pos hy, mask_shiftRight X _ hX]
    simp [hy]
  · rw [if_neg hy]
    refine ⟨fun h => .inr h.2, fun h => ⟨?_, h.resolve_left hy⟩⟩
    have h := h.resolve_left hy
    split_ifs with ht
    · have h1 : y % 2 ^ 32 = y % 64 := by omega
      rw [h1, mask_shiftRight X _ hX, h]
    · rw [mask_toNat]
      exact Nat.zero_mod _

theorem mask_ushiftRight (X : U64) (k : ℕ) :
    (mask (X >>> k) so).toNat = (X.toNat >>> k) % 2 ^ (8 * so) := by
  rw [mask_toNat, BitVec.toNat_ushiftRight]

/-- SUBPIECE: the interpreter computes a value where it does not panic. -/
theorem subpiece_agrees (checks : Bool) (X Y : U64) (hs : s ≤ 8) (hX : X.toNat < 2 ^ (8 * s)) :
    ((mask (checkedShr X (byteShift Y)) so).toNat =
        (if s ≤ Y.toNat then 0 else (X.toNat >>> (8 * Y.toNat)) % 2 ^ (8 * so)) ∧
      ¬ (checks = true ∧ 64 ≤ Y.toNat * 8) ∧
      (mask (X >>> (Y.toNat * 8 % 64)) so).toNat =
        (if s ≤ Y.toNat then 0 else (X.toNat >>> (8 * Y.toNat)) % 2 ^ (8 * so))) ↔
      (Y.toNat < 8 ∨ checks = false ∧ (X.toNat >>> (Y.toNat * 8 % 64)) % 2 ^ (8 * so) = 0) := by
  have hY := Y.isLt
  have hval : (if s ≤ Y.toNat then 0 else (X.toNat >>> (8 * Y.toNat)) % 2 ^ (8 * so)) =
      if Y.toNat < 8 then (X.toNat >>> (Y.toNat * 8)) % 2 ^ (8 * so) else 0 := by
    rw [Nat.mul_comm 8]
    split_ifs with h h'
    · rw [shiftRight_eq_zero_of_lt hX (by omega), Nat.zero_mod]
    · rfl
    · rfl
    · omega
  rw [hval, mask_ushiftRight]
  unfold checkedShr byteShift
  by_cases hy : Y.toNat < 8
  · have h1 : min (Y.toNat * 8) (2 ^ 64 - 1) % 2 ^ 32 = Y.toNat * 8 := by omega
    have h2 : Y.toNat * 8 % 64 = Y.toNat * 8 := by omega
    rw [h1, h2, if_pos hy, if_pos (by omega), mask_ushiftRight]
    have h3 : ¬ 64 ≤ Y.toNat * 8 := by omega
    simp [hy, h3]
  · rw [if_neg hy]
    have h64 : 64 ≤ Y.toNat * 8 := by omega
    constructor
    · rintro ⟨-, hc, h⟩
      exact .inr ⟨by simpa [h64] using hc, h⟩
    · intro h
      obtain ⟨hc, h⟩ := h.resolve_left hy
      refine ⟨?_, by simp [hc], h⟩
      split_ifs with ht
      · have h1 : min (Y.toNat * 8) (2 ^ 64 - 1) % 2 ^ 32 = Y.toNat * 8 % 64 := by omega
        rw [h1, mask_ushiftRight, h]
      · rw [mask_toNat]
        exact Nat.zero_mod _

/-- The bits of the two shifts of an extended word, and of the p-code shift. -/
theorem sext_getLsbD {s : ℕ} (v : U64) (h0 : 0 < s) (h8 : s ≤ 8) (j : ℕ) : (sext v s).getLsbD j =
    (decide (j < 64) && if j < 8 * s then v.getLsbD j else v.getLsbD (8 * s - 1)) := by
  have hlast : 8 * s - 1 < 8 * s := by omega
  rw [sext_eq v h0 h8, BitVec.getLsbD_signExtend, BitVec.msb_eq_getLsbD_last, BitVec.getLsbD_setWidth,
    BitVec.getLsbD_setWidth]
  by_cases hj : j < 8 * s
  · simp [hj]
  · simp [hj, hlast]

theorem sext_sshiftRight_getLsbD {s : ℕ} (v : U64) (h0 : 0 < s) (h8 : s ≤ 8) (k : ℕ) {i : ℕ}
    (hi : i < 8 * s) : ((sext v s).sshiftRight k).getLsbD i =
      if k + i < 8 * s then v.getLsbD (k + i) else v.getLsbD (8 * s - 1) := by
  have hi64 : ¬ 64 ≤ i := by omega
  rw [BitVec.getLsbD_sshiftRight, BitVec.msb_eq_getLsbD_last, sext_getLsbD v h0 h8,
    sext_getLsbD v h0 h8]
  by_cases h64 : k + i < 64
  · simp [hi64, h64]
  · have hk : ¬ k + i < 8 * s := by omega
    by_cases h63 : 63 < 8 * s
    · obtain rfl : s = 8 := by omega
      simp [hi64, h64]
    · simp [hi64, h64, hk, h63]

theorem setWidth_sshiftRight_getLsbD {s : ℕ} (v : U64) (h0 : 0 < s) (y : ℕ) {i : ℕ}
    (hi : i < 8 * s) : ((v.setWidth (8 * s)).sshiftRight (min y (8 * s))).getLsbD i =
      if y + i < 8 * s then v.getLsbD (y + i) else v.getLsbD (8 * s - 1) := by
  have hlast : 8 * s - 1 < 8 * s := by omega
  have hi' : ¬ 8 * s ≤ i := by omega
  rw [BitVec.getLsbD_sshiftRight, BitVec.msb_eq_getLsbD_last, BitVec.getLsbD_setWidth,
    BitVec.getLsbD_setWidth]
  by_cases hy : y + i < 8 * s
  · have hm : min y (8 * s) = y := by omega
    simp [hi', hm, hy]
  · have hm : ¬ min y (8 * s) + i < 8 * s := by omega
    simp [hi', hm, hy, hlast]

theorem mask_toNat_eq_iff {s : ℕ} (r : U64) (b : BitVec (8 * s)) :
    (mask r s).toNat = b.toNat ↔ ∀ i < 8 * s, r.getLsbD i = b.getLsbD i := by
  rw [mask_toNat_setWidth]
  constructor
  · intro h i hi
    rw [← BitVec.eq_of_toNat_eq h, BitVec.getLsbD_setWidth]
    simp [hi]
  · intro h
    congr 1
    apply BitVec.eq_of_getLsbD_eq
    intro i hi
    rw [← h i hi, BitVec.getLsbD_setWidth]
    simp [hi]

/-- INT_SRIGHT: the folder shifts the extended word logically. -/
theorem intSright_agrees {s : ℕ} (v : U64) (y : ℕ) (h0 : 0 < s) (h8 : s ≤ 8) :
    ((mask (sext v s >>> min (y % 2 ^ 32) 63) s).toNat =
        ((v.setWidth (8 * s)).sshiftRight (min y (8 * s))).toNat ∧
      (mask ((sext v s).sshiftRight (min (y % 2 ^ 32) 63)) s).toNat =
        ((v.setWidth (8 * s)).sshiftRight (min y (8 * s))).toNat) ↔
      ((y < 2 ^ 32 ∨ ∀ i < 8 * s, min (y % 2 ^ 32) 63 ≤ i →
          v.getLsbD i = v.getLsbD (8 * s - 1)) ∧
        (v.getLsbD (8 * s - 1) = true → 8 * s + min (y % 2 ^ 32) 63 ≤ 64)) := by
  generalize ht : min (y % 2 ^ 32) 63 = t
  -- the arithmetic shift, by whether the amount fits 32 bits
  have harith : (∀ i < 8 * s, (if t + i < 8 * s then v.getLsbD (t + i) else v.getLsbD (8 * s - 1)) =
      if y + i < 8 * s then v.getLsbD (y + i) else v.getLsbD (8 * s - 1)) ↔
      (y < 2 ^ 32 ∨ ∀ i < 8 * s, t ≤ i → v.getLsbD i = v.getLsbD (8 * s - 1)) := by
    constructor
    · intro h
      by_cases hy : y < 2 ^ 32
      · exact .inl hy
      · refine .inr fun i hi hti => ?_
        have hb := h (i - t) (by omega)
        rwa [if_pos (by omega), if_neg (by omega), show t + (i - t) = i by omega] at hb
    · rintro (hy | h) i hi
      · by_cases hy63 : y ≤ 63
        · obtain rfl : y = t := by omega
          rfl
        · rw [if_neg (by omega : ¬ y + i < 8 * s)]
          split_ifs with hti
          · rw [show t + i = 8 * s - 1 by omega]
          · rfl
      · by_cases hy : y < 2 ^ 32
        · by_cases hy63 : y ≤ 63
          · obtain rfl : y = t := by omega
            rfl
          · rw [if_neg (by omega : ¬ y + i < 8 * s)]
            split_ifs with hti
            · exact h _ hti (by omega)
            · rfl
        · rw [if_neg (by omega : ¬ y + i < 8 * s)]
          split_ifs with hti
          · exact h _ hti (by omega)
          · rfl
  have hP := fun i hi => setWidth_sshiftRight_getLsbD v h0 y (i := i) hi
  have hlog : ∀ i < 8 * s, (sext v s >>> t).getLsbD i =
      (decide (t + i < 64) && if t + i < 8 * s then v.getLsbD (t + i) else v.getLsbD (8 * s - 1)) := by
    intro i _
    rw [BitVec.getLsbD_ushiftRight, sext_getLsbD v h0 h8]
  rw [mask_toNat_eq_iff, mask_toNat_eq_iff]
  have hemu : (∀ i < 8 * s, ((sext v s).sshiftRight t).getLsbD i =
      ((v.setWidth (8 * s)).sshiftRight (min y (8 * s))).getLsbD i) ↔
      (y < 2 ^ 32 ∨ ∀ i < 8 * s, t ≤ i → v.getLsbD i = v.getLsbD (8 * s - 1)) := by
    rw [← harith]
    refine forall₂_congr fun i hi => ?_
    rw [sext_sshiftRight_getLsbD v h0 h8 t hi, hP i hi]
  rw [hemu, and_comm]
  refine and_congr_right fun hfit => ?_
  have hA := harith.mpr hfit
  constructor
  · -- the top bit of the logical shift
    intro h hneg
    have htop := h (8 * s - 1) (by omega)
    rw [hlog _ (by omega), hP _ (by omega), ← hA _ (by omega)] at htop
    by_contra hlt
    have h64 : ¬ t + (8 * s - 1) < 64 := by omega
    have hend : ¬ t + (8 * s - 1) < 8 * s := by omega
    simp [h64, hend, hneg] at htop
  · intro hneg i hi
    rw [hlog i hi, hP i hi, ← hA i hi]
    by_cases h64 : t + i < 64
    · simp [h64]
    · have hend : ¬ t + i < 8 * s := by omega
      have hpos : v.getLsbD (8 * s - 1) = false := by
        by_contra hb
        exact absurd (hneg (by simpa using hb)) (by omega)
      simp [h64, hend, hpos]

/-- LZCOUNT: the folder counts within 64 bits, the interpreter within the operand. -/
theorem lzcount_agrees {s : ℕ} (X : U64) (h0 : 0 < s) (h8 : s ≤ 8) (hso0 : 0 < so) (hso : so ≤ 8)
    (hX : X.toNat < 2 ^ (8 * s)) :
    (mask (BitVec.ofNat 64 (64 - bitLen X.toNat)) so).toNat =
        (8 * s - bitLen X.toNat) % 2 ^ (8 * so) ↔ s = 8 := by
  have hlen : bitLen X.toNat ≤ 8 * s := bitLen_le_iff.mpr hX
  have h256 : 2 ^ 8 ≤ 2 ^ (8 * so) := Nat.pow_le_pow_right two_pos (by omega)
  rw [mask_toNat, BitVec.toNat_ofNat, Nat.mod_mod_of_dvd _ (pow_dvd_pow 2 (by omega)),
    Nat.mod_eq_of_lt (by omega), Nat.mod_eq_of_lt (by omega)]
  omega

end Shifts
end Rules

namespace Emu
namespace Machine

variable {checks : Bool} {host : Host} {m : Machine} {code : OpCode} {loc : Varnode}
  {v₀ v₁ : U64} {s s' : ℕ}

@[simp] theorem readArg_const (v : U64) (s : ℕ) :
    m.readArg checks (.var ⟨"const", v, s⟩) = some (mask v s) := by
  simp only [readArg, read, if_true]

theorem sreadArg_const (v : U64) {s : ℕ} (h0 : 0 < s) (h8 : s ≤ 8) :
    m.sreadArg checks (.var ⟨"const", v, s⟩) = some (Rules.sext v s) := by
  simp only [sreadArg, readArg_const]
  change some (sext (mask v s) s) = _
  rw [mask_eq v h0, sext_eq _ h0 h8, Rules.sext_eq _ h0 h8, Rules.sext_eq v h0 h8,
    ← Rules.ofNat_mask v, BitVec.ofNat_toNat]

/-- A constant is no quotient. -/
theorem narrowsQuotientLossily_const (op : PcodeOp) {v : U64} {s : ℕ}
    (h : op.ins.head? = some (.var ⟨"const", v, s⟩)) :
    m.narrowsQuotientLossily checks op = some false := by
  unfold narrowsQuotientLossily
  rw [h]
  cases hq : m.lastQuotient with
  | none => rfl
  | some q =>
    obtain ⟨q, value, signed⟩ := q
    cases op.out with
    | none => rfl
    | some out =>
      have hne : (⟨"const", v, s⟩ : Varnode) ≠ q := fun he =>
        m.quotient_space _ hq (he ▸ rfl)
      simp only [hne, ne_eq, not_false_eq_true, true_or, if_true]

theorem computed_unary (hout : 0 < loc.size) (h0 : 0 < s) (h8 : s ≤ 8)
    (hc : Rules.foldsExactly code = true) (fold : OpCode → List (U64 × ℕ) → ℕ → U64) (w : U64)
    (hu : evalUnary code s loc.size (Rules.mask v₀ s).toNat ≠ none)
    (hw : Rules.evalConst fold code [(v₀, s)] loc.size = some w) (h : ∀ v, some loc = some v → v.space ≠ "const") :
    m.computed checks host ⟨code, some loc, [.var ⟨"const", v₀, s⟩], h⟩ = some w := by
  rw [← hw]
  cases code
  case intSext =>
    simp [computed, execute, Rules.evalConst, sreadArg_const v₀ h0 h8, mask_eq _ hout]
  case copy | intZext | intNegate | int2comp | boolNegate | popcount =>
    simp [computed, execute, Rules.evalConst, mask_eq _ hout, mask_eq _ h0, ofBool, Rules.ofBool, countOnes]
  all_goals first | exact absurd rfl hu | cases hc

theorem computed_binary (hout : 0 < loc.size) (h0 : 0 < s) (h8 : s ≤ 8) (h0' : 0 < s')
    (h8' : s' ≤ 8) (hc : Rules.foldsExactly code = true)
    (fold : OpCode → List (U64 × ℕ) → ℕ → U64) (w : U64)
    (hu : evalBinary code s s' loc.size (Rules.mask v₀ s).toNat (Rules.mask v₁ s').toNat ≠ none)
    (hw : Rules.evalConst fold code [(v₀, s), (v₁, s')] loc.size = some w)
    (h : ∀ v, some loc = some v → v.space ≠ "const") :
    m.computed checks host ⟨code, some loc, [.var ⟨"const", v₀, s⟩, .var ⟨"const", v₁, s'⟩], h⟩ =
      some w := by
  rw [← hw]
  cases code
  case intSless | intSlessequal =>
    simp [computed, execute, Rules.evalConst, sreadArg_const v₀ h0 h8, sreadArg_const v₁ h0' h8',
      mask_eq _ hout, ofBool, Rules.ofBool]
  case intAdd | intSub | intMult | intAnd | intOr | intXor | boolAnd | boolOr | boolXor =>
    simp [computed, execute, Rules.evalConst, mask_eq _ hout, mask_eq _ h0, mask_eq _ h0']
  case intEqual | intNotequal | intLess | intLessequal =>
    simp [computed, execute, Rules.evalConst, mask_eq _ hout, mask_eq _ h0, mask_eq _ h0', ofBool,
      Rules.ofBool]
  all_goals first | exact absurd rfl hu | cases hc

section Special

variable (h : ∀ v, some loc = some v → v.space ≠ "const")

theorem computed_intLeft (hout : 0 < loc.size) (h0 : 0 < s) (h0' : 0 < s') :
    m.computed checks host ⟨.intLeft, some loc, [.var ⟨"const", v₀, s⟩, .var ⟨"const", v₁, s'⟩], h⟩ =
      some (Rules.mask (Rules.mask v₀ s <<< ((Rules.mask v₁ s').toNat % 2 ^ 32 % 64)) loc.size) := by
  simp [computed, execute, mask_eq _ hout, mask_eq _ h0, mask_eq _ h0']

theorem computed_intRight (hout : 0 < loc.size) (h0 : 0 < s) (h0' : 0 < s') :
    m.computed checks host ⟨.intRight, some loc, [.var ⟨"const", v₀, s⟩, .var ⟨"const", v₁, s'⟩], h⟩ =
      some (Rules.mask (Rules.mask v₀ s >>> ((Rules.mask v₁ s').toNat % 2 ^ 32 % 64)) loc.size) := by
  simp [computed, execute, mask_eq _ hout, mask_eq _ h0, mask_eq _ h0']

theorem computed_intSright (hout : 0 < loc.size) (h0 : 0 < s) (h8 : s ≤ 8) (h0' : 0 < s') :
    m.computed checks host ⟨.intSright, some loc, [.var ⟨"const", v₀, s⟩, .var ⟨"const", v₁, s'⟩], h⟩ =
      some (Rules.mask ((Rules.sext v₀ s).sshiftRight (min ((Rules.mask v₁ s').toNat % 2 ^ 32) 63))
        loc.size) := by
  simp [computed, execute, sreadArg_const v₀ h0 h8, mask_eq _ hout, mask_eq _ h0']

theorem computed_subpiece (hout : 0 < loc.size) (h0 : 0 < s) (h0' : 0 < s') :
    m.computed checks host ⟨.subpiece, some loc, [.var ⟨"const", v₀, s⟩, .var ⟨"const", v₁, s'⟩], h⟩ =
      if checks = true ∧ 64 ≤ (Rules.mask v₁ s').toNat * 8 then none
      else some (Rules.mask (Rules.mask v₀ s >>> ((Rules.mask v₁ s').toNat * 8 % 64)) loc.size) := by
  have hn := @narrowsQuotientLossily_const checks m
    ⟨.subpiece, some loc, [.var ⟨"const", v₀, s⟩, .var ⟨"const", v₁, s'⟩], h⟩ v₀ s rfl
  by_cases hc : checks = true ∧ 64 ≤ (Rules.mask v₁ s').toNat * 8
  · obtain ⟨rfl, hle⟩ := hc
    simp [computed, execute, hn, mask_eq _ h0, mask_eq _ h0', hle]
  · rw [if_neg hc]
    simp only [not_and] at hc
    cases checks
    · simp [computed, execute, hn, mask_eq _ hout, mask_eq _ h0, mask_eq _ h0']
    · simp [computed, execute, hn, mask_eq _ hout, mask_eq _ h0, mask_eq _ h0', hc rfl]

theorem computed_lzcount (hout : 0 < loc.size) (h0 : 0 < s) (h8 : s ≤ 8) :
    ∃ w, m.computed checks host ⟨.lzcount, some loc, [.var ⟨"const", v₀, s⟩], h⟩ = some w ∧
      w.toNat = (8 * s - bitLen (Rules.mask v₀ s).toNat) % 2 ^ (8 * loc.size) := by
  have hlen : bitLen (Rules.mask v₀ s).toNat ≤ 8 * s := bitLen_le_iff.mpr (Rules.mask_lt v₀ s)
  have hle : ¬ leadingZeros (Rules.mask v₀ s) < 8 * (8 - s) := by
    unfold leadingZeros
    omega
  have hsub : BitVec.ofNat 64 (leadingZeros (Rules.mask v₀ s)) - BitVec.ofNat 64 (8 * (8 - s)) =
      BitVec.ofNat 64 (8 * s - bitLen (Rules.mask v₀ s).toNat) := by
    unfold leadingZeros
    apply BitVec.eq_of_toNat_eq
    rw [BitVec.toNat_sub, BitVec.toNat_ofNat, BitVec.toNat_ofNat, BitVec.toNat_ofNat]
    omega
  refine ⟨Rules.mask (BitVec.ofNat 64 (8 * s - bitLen (Rules.mask v₀ s).toNat)) loc.size, ?_, ?_⟩
  · simp [computed, execute, mask_eq _ hout, mask_eq _ h0, PArg.asVar, hle, hsub, min_eq_left h8]
  · rw [Rules.mask_toNat, BitVec.toNat_ofNat, Nat.mod_eq_of_lt (a := 8 * s - _) (by omega)]

end Special

end Machine
end Emu

namespace Rules

/-- Both evaluations of an op on constants give its p-code value, where it has one. -/
def Agrees (checks : Bool) (host : Emu.Host) (fold : OpCode → List (U64 × ℕ) → ℕ → U64)
    (m : Emu.Machine) (code : OpCode) (inputs : List (U64 × ℕ)) (loc : Emu.Varnode)
    (hloc : loc.space ≠ "const") : Prop :=
  ∀ r, evalPcode code (inputs.map fun p => (p.2, (mask p.1 p.2).toNat)) loc.size = some r →
    (∃ w, evalConst fold code inputs loc.size = some w ∧ w.toNat = r) ∧
    ∃ w, m.computed checks host ⟨code, some loc, inputs.map fun p => .var ⟨"const", p.1, p.2⟩,
      Emu.Varnode.out_space hloc⟩ = some w ∧ w.toNat = r

variable {checks : Bool} {host : Emu.Host} {fold : OpCode → List (U64 × ℕ) → ℕ → U64}
  {m : Emu.Machine} {code : OpCode} {loc : Emu.Varnode}

/-- The evaluations agree on an opcode without a condition. -/
theorem agrees_exact {inputs : List (U64 × ℕ)} (hc : foldsExactly code = true)
    (hs : sizesOk code (inputs.map Prod.snd) loc.size) (hin : ∀ p ∈ inputs, 0 < p.2 ∧ p.2 ≤ 8)
    (hout : 0 < loc.size) (hout8 : loc.size ≤ 8) (hloc : loc.space ≠ "const") :
    Agrees checks host fold m code inputs loc hloc := by
  intro r hr
  match inputs, hs, hin, hr with
  | [(v, s)], hs, hin, hr =>
    obtain ⟨h0, h8⟩ := hin (v, s) List.mem_cons_self
    have hval : ∃ w, evalConst fold code [(v, s)] loc.size = some w ∧ w.toNat = r :=
      evalConst_unary hc hs h0 h8 hout hout8 hr
    obtain ⟨w, hw, hwr⟩ := hval
    exact ⟨⟨w, hw, hwr⟩, w, Emu.Machine.computed_unary hout h0 h8 hc fold w
      (by rw [show evalUnary _ _ _ _ = some r from hr]; exact Option.some_ne_none r) hw _, hwr⟩
  | [(v, s), (v', s')], hs, hin, hr =>
    obtain ⟨h0, h8⟩ := hin (v, s) List.mem_cons_self
    obtain ⟨h0', h8'⟩ := hin (v', s') (List.mem_cons_of_mem _ List.mem_cons_self)
    have hval : ∃ w, evalConst fold code [(v, s), (v', s')] loc.size = some w ∧ w.toNat = r :=
      evalConst_binary hc hs h0 h8 hout hout8 hr
    obtain ⟨w, hw, hwr⟩ := hval
    exact ⟨⟨w, hw, hwr⟩, w, Emu.Machine.computed_binary hout h0 h8 h0' h8' hc fold w
      (by rw [show evalBinary _ _ _ _ _ _ = some r from hr]; exact Option.some_ne_none r) hw _, hwr⟩
  | [], _, _, hr => cases hr
  | p :: q :: u :: rest, _, _, hr =>
    rcases code_of_evalPcode hr with rfl | rfl | rfl <;> cases hc

/-- Where all three evaluations give a value. -/
theorem agrees_of_values {inputs : List (U64 × ℕ)} {hloc : loc.space ≠ "const"} {r : ℕ} {w : U64}
    {o : Option U64}
    (hr : evalPcode code (inputs.map fun p => (p.2, (mask p.1 p.2).toNat)) loc.size = some r)
    (hw : evalConst fold code inputs loc.size = some w)
    (ho : m.computed checks host ⟨code, some loc, inputs.map fun p => .var ⟨"const", p.1, p.2⟩,
      Emu.Varnode.out_space hloc⟩ = o) :
    Agrees checks host fold m code inputs loc hloc ↔ w.toNat = r ∧ ∃ w', o = some w' ∧ w'.toNat = r := by
  unfold Agrees
  rw [hr, hw, ho]
  constructor
  · intro h
    obtain ⟨⟨_, he, hwr⟩, h'⟩ := h r rfl
    exact ⟨Option.some.inj he ▸ hwr, h'⟩
  · rintro h _ he
    obtain rfl := Option.some.inj he
    exact ⟨⟨w, rfl, h.1⟩, h.2⟩

theorem agrees_iff {inputs : List (U64 × ℕ)} (hc : foldsInteger code = true)
    (hs : sizesOk code (inputs.map Prod.snd) loc.size) (hin : ∀ p ∈ inputs, 0 < p.2 ∧ p.2 ≤ 8)
    (hout : 0 < loc.size) (hout8 : loc.size ≤ 8) (hloc : loc.space ≠ "const") :
    Agrees checks host fold m code inputs loc hloc ↔ foldOk checks code inputs loc.size := by
  by_cases he : foldsExactly code = true
  · refine iff_of_true (agrees_exact he hs hin hout hout8 hloc) ?_
    unfold foldOk
    split <;> trivial
  have hspecial : code = .intLeft ∨ code = .intRight ∨ code = .intSright ∨ code = .subpiece ∨
      code = .lzcount := by
    by_contra hne
    simp only [not_or] at hne
    exact he (by simp [foldsExactly, hc, hne])
  have htwo : ∀ {a b : ℕ}, inputs.map Prod.snd = [a, b] → ∃ v v', inputs = [(v, a), (v', b)] := by
    intro a b h
    obtain ⟨⟨v, s⟩, ⟨v', s'⟩, rfl⟩ := List.length_eq_two.mp
      (by rw [← List.length_map (f := Prod.snd), h]; rfl : inputs.length = 2)
    simp only [List.map_cons, List.map_nil, List.cons.injEq] at h
    obtain ⟨rfl, rfl, -⟩ := h
    exact ⟨v, v', rfl⟩
  rcases hspecial with rfl | rfl | rfl | rfl | rfl
  · obtain ⟨sb, hsz⟩ := hs
    obtain ⟨v, v', rfl⟩ := htwo hsz
    have h0' := (hin (v', sb) (List.mem_cons_of_mem _ List.mem_cons_self)).1
    refine (agrees_of_values rfl rfl (Emu.Machine.computed_intLeft _ hout hout h0')).trans ?_
    simp only [Option.some.injEq, exists_eq_left']
    exact intLeft_agrees (mask v loc.size) (mask v' sb).toNat hout8
  · obtain ⟨sb, hsz⟩ := hs
    obtain ⟨v, v', rfl⟩ := htwo hsz
    have h0' := (hin (v', sb) (List.mem_cons_of_mem _ List.mem_cons_self)).1
    refine (agrees_of_values rfl rfl (Emu.Machine.computed_intRight _ hout hout h0')).trans ?_
    simp only [Option.some.injEq, exists_eq_left']
    exact intRight_agrees (mask v loc.size) (mask v' sb).toNat hout8 (mask_lt v _)
  · obtain ⟨sb, hsz⟩ := hs
    obtain ⟨v, v', rfl⟩ := htwo hsz
    have h0' := (hin (v', sb) (List.mem_cons_of_mem _ List.mem_cons_self)).1
    refine (agrees_of_values rfl rfl
      (Emu.Machine.computed_intSright _ hout hout hout8 h0')).trans ?_
    simp only [Option.some.injEq, exists_eq_left']
    rw [ofNat_mask]
    refine (intSright_agrees v (mask v' sb).toNat hout hout8).trans ?_
    have hbit : ∀ i < 8 * loc.size, (mask v loc.size).toNat.testBit i = v.getLsbD i := by
      intro i hi
      rw [mask_toNat_setWidth]
      change (v.setWidth _).getLsbD i = _
      rw [BitVec.getLsbD_setWidth]
      simp [hi]
    change _ ↔ ((mask v' sb).toNat < 2 ^ 32 ∨ ∀ i < 8 * loc.size, _ → _ = _) ∧ _
    rw [hbit _ (by omega)]
    refine and_congr_left fun _ => or_congr_right (forall₂_congr fun i hi => ?_)
    rw [hbit i hi]
  · obtain ⟨sa, sb, hsz, hle⟩ := hs
    obtain ⟨v, v', rfl⟩ := htwo hsz
    obtain ⟨h0, h8⟩ := hin (v, sa) List.mem_cons_self
    have h0' := (hin (v', sb) (List.mem_cons_of_mem _ List.mem_cons_self)).1
    refine (agrees_of_values rfl rfl (Emu.Machine.computed_subpiece _ hout h0 h0')).trans ?_
    refine Iff.trans (and_congr_right fun _ => ?_)
      (subpiece_agrees checks (mask v sa) (mask v' sb) h8 (mask_lt v sa))
    by_cases hp : checks = true ∧ 64 ≤ (mask v' sb).toNat * 8
    · rw [if_pos hp]
      exact iff_of_false (by simp) fun h => h.1 hp
    · rw [if_neg hp]
      simp only [Option.some.injEq, exists_eq_left', hp, not_false_eq_true, true_and]
  · obtain ⟨sa, hsz⟩ := hs
    obtain ⟨⟨v, s⟩, rfl⟩ := List.length_eq_one_iff.mp
      (by rw [← List.length_map (f := Prod.snd), hsz]; rfl : inputs.length = 1)
    obtain ⟨h0, h8⟩ := hin (v, s) List.mem_cons_self
    obtain ⟨w, hw, hwr⟩ := @Emu.Machine.computed_lzcount checks host m loc v s
      (Emu.Varnode.out_space hloc) hout h0 h8
    refine (agrees_of_values rfl rfl hw).trans ?_
    simp only [Option.some.injEq, exists_eq_left', hwr, and_true]
    exact lzcount_agrees (mask v s) h0 h8 hout hout8 (mask_lt v s)

end Rules
namespace Funcdata

variable {f f' : Funcdata} {op : OpId} {out : VarnodeId}
  {fold : OpCode → List (U64 × ℕ) → ℕ → U64}

/-- Removing every input but the first. -/
theorem removeInputs_spec (op : OpId) (k : ℕ) (f : Funcdata)
    (hlen : (f.op op).inrefs.length = k + 1) :
    Keeps f ((List.range' 1 k).reverse.foldl (fun g slot => g.opRemoveInput op slot) f) ∧
      ((List.range' 1 k).reverse.foldl (fun g slot => g.opRemoveInput op slot) f).op op =
        { f.op op with inrefs := (f.op op).inrefs.take 1 } := by
  induction k generalizing f with
  | zero =>
    refine ⟨Keeps.refl f, ?_⟩
    change f.op op = { f.op op with inrefs := (f.op op).inrefs.take 1 }
    rw [List.take_of_length_le hlen.le]
  | succ k ih =>
    rw [List.range'_concat, List.reverse_append, List.reverse_singleton, List.singleton_append,
      List.foldl_cons, Nat.one_mul, Nat.add_comm 1 k]
    have hself := opRemoveInput_op_self f op (k + 1)
    have hlen' : ((f.opRemoveInput op (k + 1)).op op).inrefs.length = k + 1 := by
      rw [hself]
      change ((f.op op).inrefs.eraseIdx (k + 1)).length = k + 1
      rw [List.length_eraseIdx_of_lt (by omega)]
      omega
    obtain ⟨hk, hop⟩ := ih _ hlen'
    refine ⟨(Keeps.opRemoveInput f op (k + 1)).trans hk, ?_⟩
    rw [hop, hself]
    change { f.op op with inrefs := ((f.op op).inrefs.eraseIdx (k + 1)).take 1 } = _
    rw [List.take_eraseIdx_eq_take_of_le _ _ _ (by omega)]

/-- What `RuleConstFold` leaves behind. -/
theorem constFold_spec (h : f.constFold fold op = some f') (hout : (f.op op).output = some out) :
    (f.vn out).size ≤ 8 ∧ (f.op op).inrefs ≠ [] ∧ ∃ val,
      Rules.evalConst fold (f.op op).opcode (f.constInputs op) (f.vn out).size = some val ∧
      (f'.op op).opcode = .copy ∧ ∃ u, (f'.op op).inrefs = [u] ∧
        (f'.vn u).size = (f.vn out).size ∧ (f'.vn u).constantValue = val := by
  unfold constFold at h
  simp only [hout] at h
  split_ifs at h with h1 h2 h3 h4 h5
  cases hv : Rules.evalConst fold (f.op op).opcode (f.constInputs op) (f.vn out).size with
  | none => simp only [hv, reduceCtorEq] at h
  | some val =>
    simp only [hv, Option.some.injEq] at h
    refine ⟨not_lt.mp h5, h3, val, rfl, ?_⟩
    subst h
    obtain ⟨v, vs, hvs⟩ := List.exists_cons_of_ne_nil h3
    have hlen : (((f.newConst (f.vn out).size val).1).op op).inrefs.length =
        (f.op op).inrefs.length - 1 + 1 := by
      rw [newConst_op, hvs]
      rfl
    obtain ⟨hk, hop⟩ := removeInputs_spec op _ _ hlen
    have hc := newConst_lt f (f.vn out).size val
    have hstand := hk.stands hc
    obtain ⟨u, hu, hst⟩ := opSetInput_op_self _ op
      (show 0 < _ by rw [hop, newConst_op, hvs]; exact Nat.zero_lt_one)
      (hc.trans_le hk.le)
    refine ⟨by rw [opSetOpcode_op_self], u, ?_, ?_, ?_⟩
    · rw [opSetOpcode_op_self, hu, hop, newConst_op, hvs]
      rfl
    · refine hst.size.trans (hstand.size.trans ?_)
      rw [newConst_vn]
      rfl
    · refine hst.loc.trans (hstand.loc.trans ?_)
      rw [newConst_vn]
      rfl

/-- The stored constant and the word the interpreter computes are the p-code value. -/
def FoldAgrees (checks : Bool) (host : Emu.Host) (f f' : Funcdata) (op : OpId) (out : VarnodeId)
    (m : Emu.Machine) (loc : Emu.Varnode) (hloc : loc.space ≠ "const") : Prop :=
  ∀ r, f.constPcode op out = some r →
    (f'.inVn op 0).constantValue.toNat = r ∧
    ∃ w, m.computed checks host (f.emuOp op loc hloc) = some w ∧ w.toNat = r

/-- `RuleConstFold` and the interpreter agree with p-code exactly where `foldOk` holds. -/
theorem constFold_agrees_iff (h : f.constFold fold op = some f')
    (hout : (f.op op).output = some out) (hcode : Rules.foldsInteger (f.op op).opcode = true)
    (hs : sizesOk (f.op op).opcode ((f.op op).inrefs.map fun v => (f.vn v).size) (f.vn out).size)
    (hin : ∀ v ∈ (f.op op).inrefs, 0 < (f.vn v).size ∧ (f.vn v).size ≤ 8)
    (hpos : 0 < (f.vn out).size) (checks : Bool) (host : Emu.Host) (m : Emu.Machine)
    (loc : Emu.Varnode) (hloc : loc.space ≠ "const") (hsize : loc.size = (f.vn out).size) :
    FoldAgrees checks host f f' op out m loc hloc ↔
      Rules.foldOk checks (f.op op).opcode (f.constInputs op) (f.vn out).size := by
  obtain ⟨h8, -, val, hval, -, u, hu, -, huv⟩ := constFold_spec h hout
  have hs' : sizesOk (f.op op).opcode ((f.constInputs op).map Prod.snd) loc.size := by
    rw [hsize, constInputs, List.map_map]
    exact hs
  have hin' : ∀ p ∈ f.constInputs op, 0 < p.2 ∧ p.2 ≤ 8 := by
    intro p hp
    obtain ⟨v, hv, rfl⟩ := List.mem_map.mp hp
    exact hin v hv
  have hagree := @Rules.agrees_iff checks host fold m _ loc _ hcode hs' hin' (hsize ▸ hpos)
    (hsize ▸ h8) hloc
  rw [← hsize, ← hagree]
  have hstored : (f'.inVn op 0).constantValue = val := by
    unfold inVn PcodeOp.input
    rw [hu]
    exact huv
  unfold FoldAgrees constPcode Rules.Agrees
  rw [hstored, ← hsize]
  rw [← hsize] at hval
  rw [hval]
  refine forall₂_congr fun r _ => and_congr_left fun _ => ?_
  simp only [Option.some.injEq, exists_eq_left']

/-- `v2 = code #x #y`, all 8 bytes wide. -/
def foldGraph (code : OpCode) (x y : U64) : Funcdata where
  spaces := SpaceManager.standard false
  vn
    | 0 => { loc := ⟨0, x⟩, size := 8, constant := true, descend := [0], nzm := x }
    | 1 => { loc := ⟨0, y⟩, size := 8, constant := true, descend := [0], nzm := y }
    | 2 => { loc := ⟨2, 0⟩, size := 8, written := true, insert := true, defOp := some 0,
             nzm := calcMask 8 }
    | _ => { loc := ⟨3, 8⟩, size := 8, nzm := calcMask 8 }
  numVarnodes := 3
  op
    | 0 => { opcode := code, parent := some 0, output := some 2, inrefs := [0, 1] }
    | _ => { opcode := .copy }
  numOps := 1
  blocks := [{ ops := [0] }]

/-- An interpreter without floating point and user ops. -/
def bareHost : Emu.Host where
  floatOp _ _ _ := none
  callother _ _ _ := none

theorem constFold_foldGraph : ∃ f',
    (foldGraph .intLeft 3 65).constFold (fun _ _ _ => 0) 0 = some f' ∧
    (FoldAgrees true bareHost (foldGraph .intLeft 3 65) f' 0 2 .bare ⟨"register", 0, 8⟩ (by decide) ↔
      Rules.foldOk true .intLeft [(3, 8), (65, 8)] 8) :=
  ⟨_, rfl, @constFold_agrees_iff (foldGraph .intLeft 3 65) _ 0 2 (fun _ _ _ => 0) rfl rfl rfl
    (⟨8, rfl⟩ : ∃ sb, [8, 8] = [8, sb]) (by decide) (by decide) true bareHost .bare ⟨"register", 0, 8⟩ (by decide) rfl⟩

/-- `0x8000000000000000 s>> 1` folds to `0x4000000000000000`. -/
theorem constFold_intSright_wrong : ¬ ∀ (fold : OpCode → List (U64 × ℕ) → ℕ → U64)
    (f f' : Funcdata) (op : OpId) (out : VarnodeId), f.constFold fold op = some f' →
    (f.op op).output = some out → Rules.foldsInteger (f.op op).opcode = true →
    sizesOk (f.op op).opcode ((f.op op).inrefs.map fun v => (f.vn v).size) (f.vn out).size →
    (∀ v ∈ (f.op op).inrefs, 0 < (f.vn v).size ∧ (f.vn v).size ≤ 8) → 0 < (f.vn out).size →
    ∀ (checks : Bool) (host : Emu.Host) (m : Emu.Machine) (loc : Emu.Varnode)
      (hloc : loc.space ≠ "const"), loc.size = (f.vn out).size →
      FoldAgrees checks host f f' op out m loc hloc := by
  intro h
  have hagree := h (fun _ _ _ => 0) (foldGraph .intSright 0x8000000000000000 1) _ 0 2 rfl rfl rfl
    (⟨8, rfl⟩ : ∃ sb, [8, 8] = [8, sb]) (by decide) (by decide) true bareHost .bare ⟨"register", 0, 8⟩ (by decide) rfl
    0xc000000000000000 (by decide)
  exact absurd hagree.1 (by decide)

end Funcdata
end Mosura
