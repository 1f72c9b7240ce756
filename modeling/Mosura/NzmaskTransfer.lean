import Mosura.MaskBits

/-! When `op_nzmask_local` covers the result of an op, for operands of 1 to 32 bytes. -/

namespace Mosura
open Window

/-- A value an input can have: it fits, its low 64 bits agree with the mask, a constant is itself. -/
structure InputOk (v : Varnode) (x : ℕ) : Prop where
  lt : x < 2 ^ (8 * v.size)
  covers : Covers v.nzm x
  const : v.constant = true → v.nzm = v.constantValue ∧ x = v.constantValue.toNat

/-- The bits an input with the record `v` can have: all known ones are in the mask, those above
the window are free unless it is a constant. -/
def Possible (v : Varnode) (i : ℕ) : Prop :=
  if v.constant then v.constantValue.getLsbD i = true
  else i < 8 * v.size ∧ (i < 64 → v.nzm.getLsbD i = true)

theorem InputOk.possible {v : Varnode} {x i : ℕ} (h : InputOk v x) (hb : x.testBit i = true) :
    Possible v i := by
  unfold Possible
  split
  · rename_i hc
    rw [(h.const hc).2] at hb
    exact hb
  · refine ⟨?_, fun hi => covers_iff.mp h.covers i hi hb⟩
    by_contra hlt
    rw [Nat.testBit_lt_two_pow (h.lt.trans_le (Nat.pow_le_pow_right two_pos (not_lt.mp hlt)))] at hb
    cases hb

theorem InputOk.eq {v : Varnode} {x : ℕ} (h : InputOk v x) (hc : v.constant = true) :
    x = v.nzm.toNat := by rw [(h.const hc).1, (h.const hc).2]

/-- A narrow or constant input lies in the window. -/
theorem InputOk.lt_window {v : Varnode} {x : ℕ} (h : InputOk v x)
    (hs : v.size ≤ 8 ∨ v.constant = true) : x < 2 ^ 64 := by
  rcases hs with hs | hs
  · exact h.lt.trans_le (Nat.pow_le_pow_right two_pos (by omega))
  · rw [h.eq hs]
    exact v.nzm.isLt

theorem covers_calcMask {so v : ℕ} (h : v < 2 ^ (8 * so)) : Covers (calcMask so) v :=
  covers_of_lt h fun i hi hk => by simp [calcMask_getLsbD, hi, hk]

theorem covers_one {v : ℕ} (h : v ≤ 1) : Covers (1 : U64) v :=
  covers_of_lt (k := 1) (by omega) fun i _ hk => by rw [show i = 0 by omega]; rfl

theorem covers_and_calcMask {m : U64} {so v : ℕ} (h : Covers m v) (hv : v < 2 ^ (8 * so)) :
    Covers (m &&& calcMask so) v := by
  simpa only [Nat.and_self] using covers_and h (covers_calcMask hv)

theorem covers_coveringmask {m : U64} {v : ℕ} (h : v ≤ m.toNat) : Covers (coveringmask m) v :=
  covers_of_lt (h.trans_lt (lt_two_pow_bitLen _)) fun i _ hk => by
    simpa only [coveringmask_getLsbD, decide_eq_true_eq] using hk

theorem covers_pcodeLeft {m : U64} {x : ℕ} (h : Covers m x) (sa : ℕ) :
    Covers (pcodeLeft m sa) (x <<< sa) := by
  rw [covers_iff] at *
  intro i hi hb
  simp only [Nat.testBit_shiftLeft, ge_iff_le, Bool.and_eq_true, decide_eq_true_eq] at hb
  simp only [pcodeLeft_getLsbD, hi, hb.1, h _ (by omega) hb.2, decide_true, Bool.and_self]

/-- Bits above the window may only shift into it where the mask has them. -/
theorem covers_pcodeRight {m : U64} {x : ℕ} (h : Covers m x) (hx : x < 2 ^ 64) (sa : ℕ) :
    Covers (pcodeRight m sa) (x >>> sa) := by
  rw [covers_iff]
  intro i _ hb
  rw [Nat.testBit_shiftRight] at hb
  rw [pcodeRight_getLsbD]
  by_cases hn : sa + i < 64
  · exact covers_iff.mp h _ hn hb
  · rw [Nat.testBit_lt_two_pow (hx.trans_le (Nat.pow_le_pow_right two_pos (by omega)))] at hb
    cases hb

theorem asU32_eq {v : U64} {k : ℕ} (h : v.toNat < k) (hk : k ≤ 2 ^ 32) : asU32 v = v.toNat :=
  Nat.mod_eq_of_lt (h.trans_le hk)

/-- The lowest set bit above bit 0, 64 if there is none. -/
def lowAbove (m : U64) : ℕ := ((List.range' 1 63).find? m.getLsbD).getD 64

/-- The operands on which the window of `op_nzmask_local` is wide enough for its opcode. -/
def windowOk (code : OpCode) (so : ℕ) (a b : Varnode) : Prop :=
  match code with
  | .intRight => b.constant = true →
      ∀ i < 64, 64 ≤ b.constantValue.toNat + i → ¬ Possible a (b.constantValue.toNat + i)
  | .intSright => so ≤ 8 → b.constant = true →
      b.constantValue.toNat < 2 ^ 32 ∨ a.nzm.getLsbD (8 * so - 1) = false ∨
        ∀ i < 8 * so, asU32 b.constantValue ≤ i → a.nzm.getLsbD i = true
  | .intDiv => so ≤ 8 ∨ a.constant = true ∨
      if b.constant then b.constantValue.toNat ≤ 1
      else 64 ≤ bitLen a.nzm.toNat ∨ 8 * so ≤ bitLen a.nzm.toNat + lowAbove b.nzm
  | .intRem => so ≤ 8 ∨ b.constant = true ∨ b.nzm = 0 ∨ 2 ^ 63 < b.nzm.toNat ∨
      a.constant = true ∧ Covers (coveringmask (b.nzm - 1)) a.constantValue.toNat
  | .popcount => a.size ≤ 8 ∨ a.constant = true ∨
      bitCount 64 a.nzm.toNat + (8 * a.size - 64) < 2 ^ bitLen (bitCount 64 a.nzm.toNat)
  | .subpiece => a.size ≤ 8 ∨
      ∀ i < 64, i < 8 * so → Possible a (8 * b.constantValue.toNat + i) → a.nzm.getLsbD i = true
  | _ => True

theorem lowAbove_spec (m : U64) : 1 ≤ lowAbove m ∧ lowAbove m ≤ 64 ∧
    (lowAbove m < 64 → m.getLsbD (lowAbove m) = true) ∧
    ∀ i, 1 ≤ i → i < lowAbove m → m.getLsbD i = false := by
  unfold lowAbove
  cases h : (List.range' 1 63).find? m.getLsbD with
  | none =>
    rw [List.find?_eq_none] at h
    refine ⟨by decide, le_rfl, fun hlt => absurd hlt (lt_irrefl _), fun i h1 hi => ?_⟩
    simpa using h i (List.mem_range'_1.mpr ⟨h1, by simpa using hi⟩)
  | some j =>
    rw [List.find?_range'_eq_some] at h
    obtain ⟨hb, hmem, hlt⟩ := h
    have hj := List.mem_range'_1.mp hmem
    simp only [Option.getD_some]
    exact ⟨hj.1, by omega, fun _ => hb, fun i h1 hi => by simpa using hlt i h1 hi⟩

/-- A divisor other than 0 and 1 is at least its lowest possible bit above bit 0. -/
theorem two_pow_lowAbove_le {m : U64} {y : ℕ} (h : Covers m y) (hy : 2 ≤ y) :
    2 ^ lowAbove m ≤ y := by
  obtain ⟨-, h64, -, hclear⟩ := lowAbove_spec m
  by_contra hlt
  obtain ⟨j, hj, hb⟩ := Nat.exists_ge_and_testBit_of_ge_two_pow (show 2 ^ 1 ≤ y by omega)
  have hjl : j < lowAbove m := by
    by_contra hge
    rw [Nat.testBit_lt_two_pow ((not_le.mp hlt).trans_le
      (Nat.pow_le_pow_right two_pos (not_lt.mp hge)))] at hb
    cases hb
  have := covers_iff.mp h j (by omega) hb
  rw [hclear j hj hjl] at this
  cases this

section Transfer

variable {a b : Varnode} {x y so v : ℕ} {cb : Bool}

theorem intSext_covers (ha : InputOk a x) (h0 : 0 < a.size) (hlt : a.size < so)
    (h : evalUnary .intSext a.size so x = some v) :
    Covers (nzmaskTransfer .intSext cb so a b) v := by
  simp only [evalUnary, Option.some.injEq] at h
  subst h
  rw [covers_iff]
  intro i hi hb
  change (signExtendMask a.nzm a.size so).getLsbD i = true
  rw [signExtendMask_getLsbD a.nzm h0 hlt]
  change ((BitVec.ofNat (8 * a.size) x).signExtend (8 * so)).getLsbD i = true at hb
  rw [BitVec.getLsbD_signExtend, BitVec.msb_eq_getLsbD_last] at hb
  have hx : ∀ j < 64, (BitVec.ofNat (8 * a.size) x).getLsbD j = true →
      a.nzm.getLsbD j = true := by
    intro j hj hb
    rw [BitVec.getLsbD_ofNat, Bool.and_eq_true] at hb
    exact covers_iff.mp ha.covers j hj hb.2
  simp only [Bool.and_eq_true, decide_eq_true_eq] at hb ⊢
  refine ⟨⟨hi, hb.1⟩, ?_⟩
  by_cases hs : i < 8 * a.size
  · rw [if_pos hs]
    rw [if_pos hs] at hb
    exact hx i hi hb.2
  · rw [if_neg hs]
    rw [if_neg hs] at hb
    exact hx _ (by omega) hb.2

theorem intXor_covers (cb : Bool) (ha : InputOk a x) (hb : InputOk b y) (hv : v < 2 ^ (8 * so))
    (h : v = x ^^^ y ∨ v = x ||| y) : Covers (nzmaskTransfer .intOr cb so a b) v := by
  change Covers (if a.nzm ≠ calcMask so then a.nzm ||| b.nzm else a.nzm) v
  by_cases hf : a.nzm = calcMask so
  · rw [if_neg (not_not.mpr hf), hf]
    exact covers_calcMask hv
  · rw [if_pos hf]
    rcases h with rfl | rfl
    · exact covers_xor ha.covers hb.covers
    · exact covers_or ha.covers hb.covers

theorem intAnd_covers (ha : InputOk a x) (hb : InputOk b y) :
    Covers (nzmaskTransfer .intAnd cb so a b) (x &&& y) := by
  change Covers (if a.nzm ≠ 0 then a.nzm &&& b.nzm else a.nzm) (x &&& y)
  split
  · exact covers_and ha.covers hb.covers
  · rename_i hz
    have hz : a.nzm = 0 := not_not.mp hz
    have := covers_and ha.covers hb.covers
    rw [hz] at this ⊢
    simpa using this

theorem intAdd_covers (ha : InputOk a x) (hb : InputOk b y) :
    Covers (nzmaskTransfer .intAdd cb so a b) ((x + y) % 2 ^ (8 * so)) := by
  have hv : (x + y) % 2 ^ (8 * so) < 2 ^ (8 * so) := Nat.mod_lt _ (Nat.two_pow_pos _)
  change Covers (if a.nzm ≠ calcMask so then
    ((a.nzm ||| b.nzm) ||| (a.nzm ||| b.nzm) <<< 1) &&& calcMask so else a.nzm) _
  by_cases hf : a.nzm = calcMask so
  · rw [if_neg (not_not.mpr hf), hf]
    exact covers_calcMask hv
  · rw [if_pos hf]
    exact covers_and_calcMask (covers_mod (covers_add ha.covers hb.covers) _) hv

theorem intLeft_covers (ha : InputOk a x) (hb : InputOk b y) (hso : so ≤ 32)
    (hs : v < 2 ^ (8 * so)) (h : evalBinary .intLeft a.size b.size so x y = some v) :
    Covers (nzmaskTransfer .intLeft cb so a b) v := by
  change Covers (if (!b.constant) = true then calcMask so
    else pcodeLeft a.nzm (asU32 b.constantValue) &&& calcMask so) v
  by_cases hc : b.constant = true
  · rw [if_neg (by simpa using hc)]
    simp only [evalBinary, Option.some.injEq] at h
    by_cases hy : 8 * so ≤ y
    · rw [if_pos hy] at h
      exact h ▸ covers_zero _
    · rw [if_neg hy] at h
      have hyc := (hb.const hc).2
      refine covers_and_calcMask ?_ hs
      rw [asU32_eq (k := 2 ^ 32) (by omega) le_rfl, ← hyc, ← h]
      exact covers_mod (covers_pcodeLeft ha.covers y) _
  · rw [if_pos (by simpa using hc)]
    exact covers_calcMask hs

theorem piece_covers (ha : InputOk a x) (hb : InputOk b y) :
    Covers (nzmaskTransfer .piece cb so a b) (x <<< (8 * b.size) ||| y) := by
  change Covers ((if b.size < 8 then pcodeLeft a.nzm (8 * b.size) else 0) ||| b.nzm) _
  refine covers_or ?_ hb.covers
  split
  · exact covers_pcodeLeft ha.covers _
  · rw [covers_iff]
    intro i hi hbit
    simp only [Nat.testBit_shiftLeft, ge_iff_le, Bool.and_eq_true, decide_eq_true_eq] at hbit
    omega

theorem lzcount_covers (hs : a.size ≤ 32) :
    Covers (nzmaskTransfer .lzcount cb so a b) ((8 * a.size - bitLen x) % 2 ^ (8 * so)) := by
  change Covers (coveringmask (BitVec.ofNat 64 (a.size * 8)) &&& calcMask so) _
  refine covers_and_calcMask (covers_mod (covers_coveringmask ?_) _)
    (Nat.mod_lt _ (Nat.two_pow_pos _))
  rw [BitVec.toNat_ofNat, Nat.mod_eq_of_lt (by omega)]
  omega

/-- `resmask` of the `IntDiv` arm. -/
def divMask (a b : Varnode) : U64 :=
  if b.constant then
    match mostsigbitSet b.nzm with
    | some sa => pcodeRight (coveringmask a.nzm) sa
    | none => coveringmask a.nzm
  else coveringmask a.nzm

theorem divMask_getLsbD (a b : Varnode) (i : ℕ) : (divMask a b).getLsbD i =
    decide ((if b.constant = true then bitLen b.nzm.toNat - 1 else 0) + i < bitLen a.nzm.toNat) := by
  unfold divMask
  split_ifs with hc
  · cases hm : mostsigbitSet b.nzm with
    | none =>
      rw [mostsigbitSet_eq_none.mp hm, coveringmask_getLsbD]
      rw [show bitLen (0 : U64).toNat - 1 = 0 from rfl, Nat.zero_add]
    | some m =>
      simp only []
      rw [pcodeRight_getLsbD, coveringmask_getLsbD, mostsigbitSet_eq_some hm, Nat.add_sub_cancel]
  · rw [coveringmask_getLsbD, Nat.zero_add]

theorem intDiv_covers_of_lt (ha : InputOk a x) (hb : InputOk b y) (hx : x < 2 ^ 64) (hy : y ≠ 0) :
    Covers (nzmaskTransfer .intDiv cb so a b) (x / y) := by
  change Covers (divMask a b) (x / y)
  have hxl : x < 2 ^ bitLen a.nzm.toNat :=
    (le_toNat_of_covers ha.covers hx).trans_lt (lt_two_pow_bitLen _)
  have hlen : bitLen a.nzm.toNat ≤ 64 := bitLen_le_iff.mpr a.nzm.isLt
  by_cases hc : b.constant = true
  · have hyb := hb.eq hc
    have hy2 : 2 ^ (bitLen b.nzm.toNat - 1) ≤ y := by
      rw [hyb, ← lt_bitLen_iff]
      have : 0 < bitLen b.nzm.toNat := lt_bitLen_iff.mpr (by rw [← hyb]; omega)
      omega
    have hq : x / y < 2 ^ (bitLen a.nzm.toNat - (bitLen b.nzm.toNat - 1)) := by
      rw [Nat.div_lt_iff_lt_mul (by omega)]
      refine hxl.trans_le (le_trans ?_ (Nat.mul_le_mul_left _ hy2))
      rw [← pow_add]
      exact Nat.pow_le_pow_right two_pos (by omega)
    refine covers_of_lt hq fun i _ hi => ?_
    rw [divMask_getLsbD, if_pos hc, decide_eq_true_eq]
    omega
  · refine covers_of_lt ((Nat.div_le_self x y).trans_lt hxl) fun i _ hi => ?_
    rw [divMask_getLsbD, if_neg hc, decide_eq_true_eq]
    omega

theorem intRem_covers_of_lt (hb : InputOk b y) (hyw : y < 2 ^ 64) (hy : y ≠ 0) :
    Covers (nzmaskTransfer .intRem cb so a b) (x % y) := by
  change Covers (coveringmask (b.nzm - 1)) (x % y)
  have hle := le_toNat_of_covers hb.covers hyw
  have hlt : x % y < y := Nat.mod_lt _ (by omega)
  apply covers_coveringmask
  have h1 : (1 : U64) ≤ b.nzm := by
    rw [BitVec.le_def, show (1 : U64).toNat = 1 from rfl]
    exact (Nat.pos_of_ne_zero hy).trans_le hle
  rw [BitVec.toNat_sub_of_le h1, show (1 : U64).toNat = 1 from rfl]
  exact Nat.le_sub_one_of_lt (hlt.trans_le hle)

theorem popcount_covers_of_le {c : ℕ}
    (hc : c < 2 ^ bitLen (bitCount 64 a.nzm.toNat)) :
    Covers (nzmaskTransfer .popcount cb so a b) (c % 2 ^ (8 * so)) := by
  change Covers (coveringmask (BitVec.ofNat 64 (bitCount 64 a.nzm.toNat)) &&& calcMask so) _
  refine covers_and_calcMask (covers_mod (covers_of_lt hc fun i _ hk => ?_) _)
    (Nat.mod_lt _ (Nat.two_pow_pos _))
  have := bitCount_le 64 a.nzm.toNat
  rw [coveringmask_getLsbD, decide_eq_true_eq, BitVec.toNat_ofNat, Nat.mod_eq_of_lt (by omega)]
  exact hk

theorem intMult_covers (ha : InputOk a x) (hb : InputOk b y)
    (has : a.size = so) (hbs : b.size = so) :
    Covers (nzmaskTransfer .intMult cb so a b) (x * y % 2 ^ (8 * so)) := by
  change Covers (multMask so a.nzm b.nzm) _
  have hv : x * y % 2 ^ (8 * so) < 2 ^ (8 * so) := Nat.mod_lt _ (Nat.two_pow_pos _)
  by_cases h8 : 8 < so
  · unfold multMask
    rw [if_pos h8]
    exact covers_calcMask hv
  · have hx := ha.lt_window (.inl (by omega))
    have hy := hb.lt_window (.inl (by omega))
    by_cases ha0 : a.nzm = 0
    · have hx0 : x = 0 := by
        have := le_toNat_of_covers ha.covers hx
        rw [ha0] at this
        exact Nat.le_zero.mp this
      rw [hx0, Nat.zero_mul, Nat.zero_mod]
      exact covers_zero _
    by_cases hb0 : b.nzm = 0
    · have hy0 : y = 0 := by
        have := le_toNat_of_covers hb.covers hy
        rw [hb0] at this
        exact Nat.le_zero.mp this
      rw [hy0, Nat.mul_zero, Nat.zero_mod]
      exact covers_zero _
    obtain ⟨l1, m1, hl1, hm1⟩ := exists_window ha0
    obtain ⟨l2, m2, hl2, hm2⟩ := exists_window hb0
    obtain ⟨⟨x', hx'⟩, hx2, hx3⟩ := covered_bounds hl1 hm1 ha.covers hx
    obtain ⟨⟨y', hy'⟩, hy2, hy3⟩ := covered_bounds hl2 hm2 hb.covers hy
    rw [covers_iff]
    intro i hi hbit
    rw [Nat.testBit_mod_two_pow, Bool.and_eq_true, decide_eq_true_eq] at hbit
    have hlow : l1 + l2 ≤ i := by
      have hbit := hbit.2
      rw [show x * y = 2 ^ (l1 + l2) * (x' * y') by rw [hx', hy', pow_add]; ring,
        Nat.testBit_two_pow_mul, Bool.and_eq_true, decide_eq_true_eq] at hbit
      exact hbit.1
    have htop : i < productTop l1 m1 l2 m2 := by
      by_contra hge
      rw [Nat.testBit_lt_two_pow ((mul_lt_productTop hx2 hy2 hx3 hy3).trans_le
        (Nat.pow_le_pow_right two_pos (not_lt.mp hge)))] at hbit
      exact absurd hbit.2 (by simp)
    rw [multMask_getLsbD (not_lt.mp h8) hm1 hm2 hl1 hl2]
    simp only [hbit.1, hlow, htop, decide_true, Bool.and_self]

theorem intRight_eval (cb : Bool) (hb : InputOk b y) (has : a.size = so) (hso : so ≤ 32)
    (hc : b.constant = true) (hv : evalBinary .intRight a.size b.size so x y = some v) :
    v = 0 ∨ v = x >>> y ∧ nzmaskTransfer .intRight cb so a b = pcodeRight a.nzm y := by
  simp only [evalBinary, Option.some.injEq] at hv
  by_cases hy : 8 * a.size ≤ y
  · rw [if_pos hy] at hv
    exact .inl hv.symm
  · rw [if_neg hy] at hv
    refine .inr ⟨hv.symm, ?_⟩
    change (if (!b.constant) = true then _ else _) = _
    rw [if_neg (by simpa using hc), (hb.const hc).2,
      asU32_eq (k := 2 ^ 32) (by rw [← (hb.const hc).2]; omega) le_rfl]

/-- INT_SRIGHT of a narrow value: the shifted bits, and the sign fill where the sign may be set. -/
theorem evalBinary_intSright_testBit {sa sb i : ℕ} (h0 : 0 < sa)
    (h : evalBinary .intSright sa sb so x y = some v) :
    v.testBit i = (decide (i < 8 * sa) &&
      if y + i < 8 * sa then x.testBit (y + i) else x.testBit (8 * sa - 1)) := by
  simp only [evalBinary, Option.some.injEq] at h
  subst h
  change ((BitVec.ofNat (8 * sa) x).sshiftRight (min y (8 * sa))).getLsbD i = _
  rw [BitVec.getLsbD_sshiftRight, BitVec.msb_eq_getLsbD_last]
  simp only [BitVec.getLsbD_ofNat]
  by_cases hi : i < 8 * sa
  · simp only [show ¬ 8 * sa ≤ i by omega, hi, decide_false, decide_true, Bool.not_false,
      Bool.true_and]
    by_cases hyi : y + i < 8 * sa
    · rw [if_pos (by omega), if_pos hyi, show min y (8 * sa) = y by omega]
      simp only [hyi, decide_true, Bool.true_and]
    · rw [if_neg (by omega), if_neg hyi]
      simp only [show 8 * sa - 1 < 8 * sa by omega, decide_true, Bool.true_and]
  · simp only [show 8 * sa ≤ i by omega, hi, decide_true, decide_false, Bool.not_true,
      Bool.false_and]

theorem intSrightMask_getLsbD (m : U64) {size sa i : ℕ} (h0 : 0 < size) (h8 : size ≤ 8) :
    (if m &&& (calcMask size ^^^ (calcMask size >>> 1)) = 0 then pcodeRight m sa
      else pcodeRight m sa ||| (pcodeRight (calcMask size) sa ^^^ calcMask size)).getLsbD i =
    (m.getLsbD (sa + i) || (m.getLsbD (8 * size - 1) && decide (i < 8 * size) &&
      decide (8 * size ≤ sa + i))) := by
  have hsign : ∀ i, (calcMask size ^^^ (calcMask size >>> 1)).getLsbD i =
      decide (i = 8 * size - 1) := by
    intro i
    simp only [BitVec.getLsbD_xor, BitVec.getLsbD_ushiftRight, calcMask_getLsbD]
    by_cases h1 : i = 8 * size - 1
    · subst h1
      simp [show 8 * size - 1 < 64 by omega, show 8 * size - 1 < 8 * size by omega,
        show ¬ 1 + (8 * size - 1) < 8 * size by omega]
    · by_cases h2 : i < 8 * size
      · simp [show i < 64 by omega, h2, show 1 + i < 8 * size by omega, h1,
          show 1 + i < 64 by omega]
      · simp [h2, h1, show ¬ 1 + i < 8 * size by omega]
  have hz : m &&& (calcMask size ^^^ (calcMask size >>> 1)) = 0 ↔
      m.getLsbD (8 * size - 1) = false := by
    constructor
    · intro h
      have hb := congrArg (fun z : U64 => z.getLsbD (8 * size - 1)) h
      simpa [hsign] using hb
    · intro h
      apply BitVec.eq_of_getLsbD_eq
      intro j _
      rw [BitVec.getLsbD_and, hsign]
      by_cases hj : j = 8 * size - 1
      · simp [hj, h]
      · simp [hj]
  by_cases hm : m.getLsbD (8 * size - 1) = false
  · rw [if_pos (hz.mpr hm), pcodeRight_getLsbD, hm]
    simp
  · rw [if_neg (mt hz.mp hm)]
    rw [Bool.not_eq_false] at hm
    simp only [BitVec.getLsbD_or, BitVec.getLsbD_xor, pcodeRight_getLsbD, calcMask_getLsbD, hm,
      Bool.true_and]
    by_cases hi : i < 8 * size
    · by_cases hs : 8 * size ≤ sa + i
      · simp [hi, hs, show i < 64 by omega, show ¬ sa + i < 8 * size by omega]
      · simp [hi, hs, show i < 64 by omega, show sa + i < 8 * size by omega,
          show sa + i < 64 by omega]
    · simp [hi, show ¬ sa + i < 8 * size by omega]

theorem intRight_covers (ha : InputOk a x) (hb : InputOk b y) (has : a.size = so) (hso : so ≤ 32)
    (hv : v < 2 ^ (8 * so)) (hw : windowOk .intRight so a b)
    (h : evalBinary .intRight a.size b.size so x y = some v) :
    Covers (nzmaskTransfer .intRight cb so a b) v := by
  by_cases hc : b.constant = true
  · rcases intRight_eval cb hb has hso hc h with rfl | ⟨rfl, hm⟩
    · exact covers_zero _
    · rw [hm, covers_iff]
      intro i hi hbit
      rw [Nat.testBit_shiftRight] at hbit
      rw [pcodeRight_getLsbD]
      by_cases hn : y + i < 64
      · exact covers_iff.mp ha.covers _ hn hbit
      · rw [(hb.const hc).2] at hn hbit
        exact absurd (ha.possible hbit) (hw hc i hi (not_lt.mp hn))
  · change Covers (if (!b.constant) = true then calcMask so else _) v
    rw [if_pos (by simpa using hc)]
    exact covers_calcMask hv

theorem intSright_mask (hb : b.constant = true) (h8 : so ≤ 8) (h0 : 0 < so) (i : ℕ) :
    (nzmaskTransfer .intSright cb so a b).getLsbD i =
      (a.nzm.getLsbD (asU32 b.constantValue + i) || (a.nzm.getLsbD (8 * so - 1) &&
        decide (i < 8 * so) && decide (8 * so ≤ asU32 b.constantValue + i))) := by
  rw [← intSrightMask_getLsbD a.nzm h0 h8]
  change (if (!b.constant || decide (8 < so)) = true then _ else _ : U64).getLsbD i = _
  rw [if_neg (by simp [hb, h8])]

theorem intSright_covers (ha : InputOk a x) (hb : InputOk b y) (has : a.size = so) (h0 : 0 < so)
    (hv : v < 2 ^ (8 * so)) (hw : windowOk .intSright so a b)
    (h : evalBinary .intSright a.size b.size so x y = some v) :
    Covers (nzmaskTransfer .intSright cb so a b) v := by
  by_cases hc : b.constant = true ∧ so ≤ 8
  · obtain ⟨hc, h8⟩ := hc
    have hy := (hb.const hc).2
    rw [covers_iff]
    intro i hi hbit
    rw [intSright_mask hc h8 h0]
    rw [evalBinary_intSright_testBit (by omega) h, has, Bool.and_eq_true, decide_eq_true_eq] at hbit
    obtain ⟨his, hbit⟩ := hbit
    by_cases hyi : y + i < 8 * so
    · rw [if_pos hyi] at hbit
      rw [asU32_eq (k := 2 ^ 32) (by omega) le_rfl, ← hy, covers_iff.mp ha.covers _ (by omega) hbit,
        Bool.true_or]
    · rw [if_neg hyi] at hbit
      have hsign := covers_iff.mp ha.covers (8 * so - 1) (by omega) hbit
      simp only [hsign, his, decide_true, Bool.true_and, Bool.or_eq_true, decide_eq_true_eq]
      rcases hw h8 hc with hlt | hclear | hfull
      · rw [asU32_eq hlt le_rfl, ← hy]
        exact .inr (not_lt.mp hyi)
      · rw [hclear] at hsign
        cases hsign
      · by_cases hs : asU32 b.constantValue + i < 8 * so
        · exact .inl (hfull _ hs (Nat.le_add_right _ _))
        · exact .inr (not_lt.mp hs)
  · change Covers (if (!b.constant || decide (8 < so)) = true then calcMask so else _) v
    rw [if_pos (by by_cases hb : b.constant = true <;> simp_all)]
    exact covers_calcMask hv

theorem subpiece_covers (ha : InputOk a x) (hb : InputOk b y) (hc : b.constant = true)
    (hs : a.size ≤ 32) (hw : windowOk .subpiece so a b) (hv : v < 2 ^ (8 * so))
    (h : evalBinary .subpiece a.size b.size so x y = some v) :
    Covers (nzmaskTransfer .subpiece cb so a b) v := by
  simp only [evalBinary, Option.some.injEq] at h
  by_cases hy : a.size ≤ y
  · rw [if_pos hy] at h
    exact h ▸ covers_zero _
  rw [if_neg hy] at h
  have hyc := (hb.const hc).2
  have hoff : asU32 b.constantValue = y := by
    rw [asU32_eq (k := 2 ^ 32) (by omega) le_rfl, hyc]
  change Covers ((if a.size ≤ 8 then (if asU32 b.constantValue < 8 then
    pcodeRight a.nzm (8 * asU32 b.constantValue) else 0) else a.nzm) &&& calcMask so) v
  rw [hoff]
  by_cases h8 : a.size ≤ 8
  · rw [if_pos h8, if_pos (by omega)]
    refine covers_and_calcMask ?_ hv
    rw [← h]
    exact covers_mod (covers_pcodeRight ha.covers (ha.lt_window (.inl h8)) _) _
  · rw [if_neg h8]
    refine covers_and_calcMask ?_ hv
    rw [← h, covers_iff]
    intro i hi hbit
    rw [Nat.testBit_mod_two_pow, Bool.and_eq_true, decide_eq_true_eq, Nat.testBit_shiftRight] at hbit
    rw [hyc] at hbit
    exact (hw.resolve_left h8) i hi hbit.1 (ha.possible hbit.2)

theorem intDiv_covers (ha : InputOk a x) (hb : InputOk b y) (has : a.size = so)
    (hw : windowOk .intDiv so a b) (hy : y ≠ 0) :
    Covers (nzmaskTransfer .intDiv cb so a b) (x / y) := by
  by_cases hwin : so ≤ 8 ∨ a.constant = true
  · exact intDiv_covers_of_lt ha hb (ha.lt_window (by rwa [has])) hy
  rw [not_or] at hwin
  have hw := (hw.resolve_left hwin.1).resolve_left hwin.2
  change Covers (divMask a b) (x / y)
  have hone : (b.constant = true → b.nzm.toNat ≤ 1) → y = 1 → Covers (divMask a b) (x / y) := by
    rintro hb1 rfl
    rw [Nat.div_one, covers_iff]
    intro i hi hbit
    have := lt_bitLen_iff_testBit.mpr ⟨i, le_rfl, covers_iff.mp ha.covers i hi hbit⟩
    rw [divMask_getLsbD, decide_eq_true_eq]
    split
    · rename_i hc
      have : bitLen b.nzm.toNat ≤ 1 := bitLen_le_iff.mpr (by have := hb1 hc; omega)
      omega
    · omega
  by_cases hc : b.constant = true
  · rw [if_pos hc] at hw
    have hyb := (hb.const hc).2
    exact hone (fun _ => by rwa [(hb.const hc).1]) (by omega)
  · rw [if_neg hc] at hw
    by_cases hy1 : y = 1
    · exact hone (fun h => absurd h hc) hy1
    rcases hw with hk | hk
    · refine covers_iff.mpr fun i hi _ => ?_
      rw [divMask_getLsbD, if_neg hc, decide_eq_true_eq]
      omega
    · have hyl := two_pow_lowAbove_le hb.covers (show 2 ≤ y by omega)
      have hq : x / y < 2 ^ bitLen a.nzm.toNat := by
        rw [Nat.div_lt_iff_lt_mul (Nat.pos_of_ne_zero hy)]
        calc x < 2 ^ (8 * so) := has ▸ ha.lt
          _ ≤ 2 ^ (bitLen a.nzm.toNat + lowAbove b.nzm) := Nat.pow_le_pow_right two_pos hk
          _ = 2 ^ bitLen a.nzm.toNat * 2 ^ lowAbove b.nzm := pow_add _ _ _
          _ ≤ 2 ^ bitLen a.nzm.toNat * y := Nat.mul_le_mul_left _ hyl
      refine covers_of_lt hq fun i _ hi => ?_
      rw [divMask_getLsbD, if_neg hc, decide_eq_true_eq]
      omega

/-- `coveringmask(nzm - 1)` is all ones when `nzm` is 0 (it wraps) or its top bit must be set. -/
theorem intRem_mask_full (h : b.nzm = 0 ∨ 2 ^ 63 < b.nzm.toNat) (i : ℕ) (hi : i < 64) :
    (coveringmask (b.nzm - 1)).getLsbD i = true := by
  rw [coveringmask_getLsbD, decide_eq_true_eq]
  refine hi.trans_le (Nat.succ_le_of_lt (lt_bitLen_iff.mpr ?_) : 64 ≤ _)
  rcases h with h | h
  · rw [h]
    decide
  · have h1 : (1 : U64) ≤ b.nzm := by
      rw [BitVec.le_def, show (1 : U64).toNat = 1 from rfl]
      omega
    rw [BitVec.toNat_sub_of_le h1, show (1 : U64).toNat = 1 from rfl]
    omega

theorem intRem_covers (ha : InputOk a x) (hb : InputOk b y) (hbs : b.size = so)
    (hw : windowOk .intRem so a b) (hy : y ≠ 0) :
    Covers (nzmaskTransfer .intRem cb so a b) (x % y) := by
  by_cases hwin : y < 2 ^ 64
  · exact intRem_covers_of_lt hb hwin hy
  change Covers (coveringmask (b.nzm - 1)) (x % y)
  rcases hw with h8 | hc | h0 | h63 | ⟨hc, hcov⟩
  · exact absurd (hb.lt_window (.inl (hbs ▸ h8))) hwin
  · exact absurd (hb.lt_window (.inr hc)) hwin
  · exact covers_iff.mpr fun i hi _ => intRem_mask_full (.inl h0) i hi
  · exact covers_iff.mpr fun i hi _ => intRem_mask_full (.inr h63) i hi
  · have hx := ha.lt_window (.inr hc)
    rw [Nat.mod_eq_of_lt (by omega), (ha.const hc).2]
    exact hcov

theorem popcount_covers (ha : InputOk a x) (hw : windowOk .popcount so a b) :
    Covers (nzmaskTransfer .popcount cb so a b) (bitCount (8 * a.size) x % 2 ^ (8 * so)) := by
  apply popcount_covers_of_le
  have hlow : bitCount 64 x ≤ bitCount 64 a.nzm.toNat :=
    bitCount_mono fun i hi hb => covers_iff.mp ha.covers i hi hb
  by_cases hwin : a.size ≤ 8 ∨ a.constant = true
  · refine lt_of_le_of_lt ?_ (lt_two_pow_bitLen _)
    refine le_trans ?_ hlow
    by_cases h8 : 8 * a.size ≤ 64
    · rw [show 64 = 8 * a.size + (64 - 8 * a.size) by omega, bitCount_add]
      exact Nat.le_add_right _ _
    · rw [show 8 * a.size = 64 + (8 * a.size - 64) by omega, bitCount_add, Nat.shiftRight_eq_zero
        _ _ (ha.lt_window hwin)]
      simp [bitCount]
  · rw [not_or] at hwin
    refine lt_of_le_of_lt ?_ ((hw.resolve_left hwin.1).resolve_left hwin.2)
    rw [show 8 * a.size = 64 + (8 * a.size - 64) by omega, bitCount_add, Nat.add_sub_cancel_left]
    exact Nat.add_le_add hlow (bitCount_le _ _)

theorem bool_covers {c : Bool} : Covers (1 : U64) c.toNat := covers_one c.toNat_le

theorem nzmaskTransfer_covers_unary {code : OpCode} (hs : sizesOk code [a.size] so)
    (h0 : 0 < a.size) (ha32 : a.size ≤ 32) (ha : InputOk a x) (hv : v < 2 ^ (8 * so))
    (hw : windowOk code so a b) (h : evalUnary code a.size so x = some v) :
    Covers (nzmaskTransfer code cb so a b) v := by
  cases code <;> simp only [evalUnary, reduceCtorEq, Option.some.injEq,
    Option.ite_none_right_eq_some] at h
  case copy | intZext => exact h ▸ ha.covers
  case cast | intNegate | int2comp => exact covers_calcMask hv
  case intSext =>
    obtain ⟨sa, he, hlt⟩ := hs
    rw [List.cons.injEq] at he
    exact intSext_covers ha h0 (he.1 ▸ hlt) (by rw [evalUnary, h])
  case boolNegate => exact covers_one (h.2 ▸ Nat.sub_le _ _)
  case popcount => exact h ▸ popcount_covers ha hw
  case lzcount => exact h ▸ lzcount_covers ha32

theorem nzmaskTransfer_covers_binary {code : OpCode} (hs : sizesOk code [a.size, b.size] so)
    (h0 : 0 < so) (hso : so ≤ 32) (ha32 : a.size ≤ 32) (ha : InputOk a x) (hb : InputOk b y)
    (hsub : code = .subpiece → b.constant = true) (hv : v < 2 ^ (8 * so))
    (hw : windowOk code so a b) (h : evalBinary code a.size b.size so x y = some v) :
    Covers (nzmaskTransfer code cb so a b) v := by
  cases code <;> simp only [evalBinary, reduceCtorEq, Option.some.injEq,
    Option.ite_none_right_eq_some, Option.ite_none_left_eq_some] at h
  case intEqual | intNotequal | intLess | intLessequal | intSless | intSlessequal | intCarry
    | intScarry | intSborrow => exact h ▸ bool_covers
  case intAdd => exact h ▸ intAdd_covers ha hb
  case intXor => exact intXor_covers cb ha hb hv (.inl h.symm)
  case intOr => exact intXor_covers cb ha hb hv (.inr h.symm)
  case intAnd => exact h ▸ intAnd_covers ha hb
  case intLeft => exact intLeft_covers ha hb hso hv (by rw [evalBinary, h])
  case intRight =>
    obtain ⟨_, he⟩ := hs
    rw [List.cons.injEq] at he
    exact intRight_covers ha hb he.1 hso hv hw (by rw [evalBinary, h])
  case intSright =>
    obtain ⟨_, he⟩ := hs
    rw [List.cons.injEq] at he
    exact intSright_covers ha hb he.1 h0 hv hw (by rw [evalBinary, h])
  case intMult =>
    simp only [sizesOk, List.cons.injEq, and_true] at hs
    exact h ▸ intMult_covers ha hb hs.1 hs.2
  case intDiv =>
    simp only [sizesOk, List.cons.injEq, and_true] at hs
    exact h.2 ▸ intDiv_covers ha hb hs.1 hw h.1
  case intRem =>
    simp only [sizesOk, List.cons.injEq, and_true] at hs
    exact h.2 ▸ intRem_covers ha hb hs.2 hw h.1
  case boolXor | boolAnd | boolOr =>
    obtain ⟨⟨h1, h2⟩, rfl⟩ := h
    refine covers_one ?_
    interval_cases x <;> interval_cases y <;> decide
  case piece => exact h ▸ piece_covers ha hb
  case subpiece =>
    exact subpiece_covers ha hb (hsub rfl) ha32 hw hv (by rw [evalBinary, h])
  case intSub | intSdiv | intSrem | ptrsub => exact covers_calcMask hv

end Transfer

/-- The codes the transfer gives the full mask or the boolean mask to. -/
theorem nzmaskTransfer_covers_opaque {code : OpCode} {cb : Bool} {so v : ℕ} {a b : Varnode}
    (hm : code ≠ .multiequal) (he : code.hasSemantics = false) (hv : v < 2 ^ (8 * so))
    (hbool : code.knownBool cb = true → v ≤ 1) :
    Covers (nzmaskTransfer code cb so a b) v := by
  cases code
  case multiequal => exact absurd rfl hm
  case call | callind | cpoolref =>
    change Covers (if cb = true then 1 else calcMask so) v
    split
    · rename_i hcb
      exact covers_one (hbool (by simp [OpCode.knownBool, hcb]))
    · exact covers_calcMask hv
  case floatEqual | floatNotequal | floatLess | floatLessequal | floatNan =>
    exact covers_one (hbool (by simp [OpCode.knownBool, OpCode.isBoolOutput]))
  all_goals first
    | exact absurd he (by decide)
    | exact covers_calcMask hv

namespace Funcdata

variable (f : Funcdata) (dom : Dominators)

/-- One value for each input slot of `op`, each consistent with the slot's Varnode. -/
def InputsOk (op : OpId) (xs : List ℕ) : Prop :=
  List.Forall₂ (fun v x => InputOk (f.vn v) x) (f.op op).inrefs xs

/-- The result of `op_nzmask_local` covers every result of the op. -/
def NzmaskSound (op : OpId) (out : VarnodeId) : Prop :=
  ∀ xs v, f.InputsOk op xs →
    OpResult (f.op op).opcode (f.op op).calculatedBool (f.operands op xs) (f.vn out).size v →
    Covers (f.opNzmaskLocal dom op out false) v

variable {f} {op : OpId} {out : VarnodeId} {xs : List ℕ}

theorem operands_fit (h : f.InputsOk op xs) : (f.operands op xs).Fit := by
  unfold InputsOk at h
  unfold operands Operands.Fit
  generalize (f.op op).inrefs = ids at h ⊢
  induction h with
  | nil => simp
  | cons hx _ ih =>
    simp only [List.zipWith_cons_cons, List.mem_cons, forall_eq_or_imp]
    exact ⟨hx.lt, ih⟩

theorem inVn_of_getElem? {slot : ℕ} {v : VarnodeId} (h : (f.op op).inrefs[slot]? = some v) :
    f.inVn op slot = f.vn v := by
  simp only [inVn, PcodeOp.input, h, Option.elim_some]

theorem foldl_or_getLsbD (p : ℕ → Bool) (g : ℕ → U64) (l : List ℕ) (acc : U64) (i : ℕ) :
    (l.foldl (fun m j => if p j then m else m ||| g j) acc).getLsbD i = true ↔
      acc.getLsbD i = true ∨ ∃ j ∈ l, p j = false ∧ (g j).getLsbD i = true := by
  induction l generalizing acc with
  | nil => simp
  | cons j l ih =>
    rw [List.foldl_cons, ih]
    cases hp : p j
    · simp [hp, or_assoc]
    · simp [hp]

/-- The mask of a MULTIEQUAL is the union over the slots it does not clip. -/
theorem multiequalMask_getLsbD (clip : Bool) (full : U64) (h0 : (f.op op).numInputs ≠ 0) (i : ℕ) :
    (f.multiequalMask dom op clip full).getLsbD i = true ↔
      ∃ slot < (f.op op).numInputs, (clip && f.isLoopIn dom op slot) = false ∧
        (f.inVn op slot).nzm.getLsbD i = true := by
  unfold multiequalMask
  rw [if_neg h0, foldl_or_getLsbD]
  simp

theorem nzmaskTransfer_covers_eval {v : ℕ} (hwf : f.OpWf op out) (hout : (f.vn out).size ≤ 32)
    (hin : ∀ v ∈ (f.op op).inrefs, (f.vn v).size ≤ 32) (hxs : f.InputsOk op xs)
    (hv : v < 2 ^ (8 * (f.vn out).size))
    (hw : windowOk (f.op op).opcode (f.vn out).size (f.inVn op 0) (f.inVn op 1))
    (h : evalPcode (f.op op).opcode (f.operands op xs) (f.vn out).size = some v) :
    Covers (nzmaskTransfer (f.op op).opcode (f.op op).calculatedBool (f.vn out).size
      (f.inVn op 0) (f.inVn op 1)) v := by
  have hs := hwf.sizes
  have hpos := hwf.in_pos
  have hoff := hwf.offset
  unfold InputsOk at hxs
  unfold operands at h
  obtain ⟨ins, hi⟩ : ∃ ins, (f.op op).inrefs = ins := ⟨_, rfl⟩
  have hslot : ∀ slot u, ins[slot]? = some u → f.inVn op slot = f.vn u := fun slot u hu =>
    inVn_of_getElem? (hi ▸ hu)
  rw [hi] at hs hin hpos hxs h
  -- the number of operands decides which semantics applies
  rcases hxs with _ | ⟨hx, _ | ⟨hy, _ | ⟨_, _⟩⟩⟩
  · simp [evalPcode] at h
  · rw [hslot 0 _ rfl] at hw ⊢
    exact nzmaskTransfer_covers_unary hs (hpos _ (by simp)) (hin _ (by simp)) hx hv hw h
  · rw [hslot 1 _ rfl] at hoff
    rw [hslot 0 _ rfl, hslot 1 _ rfl] at hw ⊢
    exact nzmaskTransfer_covers_binary hs hwf.out_pos hout (hin _ (by simp)) hx hy hoff hv hw h
  · simp only [List.zipWith_cons_cons] at h
    rcases code_of_evalPcode h with hc | hc | hc <;> rw [hc] <;> exact covers_calcMask hv

theorem opNzmaskLocal_covers {v : ℕ} (hwf : f.OpWf op out) (hout : (f.vn out).size ≤ 32)
    (hin : ∀ v ∈ (f.op op).inrefs, (f.vn v).size ≤ 32) (hxs : f.InputsOk op xs)
    (hw : windowOk (f.op op).opcode (f.vn out).size (f.inVn op 0) (f.inVn op 1))
    (h : OpResult (f.op op).opcode (f.op op).calculatedBool (f.operands op xs) (f.vn out).size v) :
    Covers (f.opNzmaskLocal dom op out false) v := by
  have hs := hwf.sizes
  rw [← operands_map_fst (List.Forall₂.length_eq hxs)] at hs
  have hv := OpResult.lt hs hwf.out_pos (operands_fit hxs) h
  unfold OpResult at h
  unfold opNzmaskLocal
  split_ifs at h ⊢ with hm he
  · rw [operands_map_snd (List.Forall₂.length_eq hxs)] at h
    obtain ⟨slot, hslot, rfl⟩ := List.getElem_of_mem h
    have hlen := List.Forall₂.length_eq hxs
    have hget := List.Forall₂.get hxs (hlen ▸ hslot) hslot
    rw [covers_iff]
    intro i hi hb
    rw [multiequalMask_getLsbD dom _ _ (by simp only [PcodeOp.numInputs]; omega)]
    refine ⟨slot, by simp only [PcodeOp.numInputs]; omega, rfl, ?_⟩
    rw [inVn_of_getElem? (List.getElem?_eq_getElem (hlen ▸ hslot))]
    exact covers_iff.mp hget.covers i hi hb
  · exact nzmaskTransfer_covers_eval hwf hout hin hxs hv hw h
  · exact nzmaskTransfer_covers_opaque hm (by simpa using he) hv h.2

end Funcdata
end Mosura
