import Mathlib

/-! Masks that describe the low `w` bits of a natural number of any size. -/

namespace Window

variable {w : ℕ}

/-- Every set bit of `m` is a set bit of `m'`. -/
def Below (m m' : BitVec w) : Prop := ∀ i, m.getLsbD i = true → m'.getLsbD i = true

/-- No bit of `v` inside the window is set where `m` is clear. -/
def Covers (m : BitVec w) (v : ℕ) : Prop := BitVec.ofNat w v &&& ~~~m = 0#w

instance (m : BitVec w) (v : ℕ) : Decidable (Covers m v) :=
  inferInstanceAs (Decidable (_ = _))

theorem covers_iff {m : BitVec w} {v : ℕ} :
    Covers m v ↔ ∀ i < w, v.testBit i = true → m.getLsbD i = true := by
  constructor
  · intro h i hi hv
    by_contra hm
    have hb := congrArg (fun x : BitVec w => x.getLsbD i) h
    simp only [BitVec.getLsbD_and, BitVec.getLsbD_ofNat, BitVec.getLsbD_not, hi, hv, decide_true,
      Bool.true_and, Nat.zero_testBit] at hb
    exact hm (by simpa using hb)
  · intro h
    apply BitVec.eq_of_getLsbD_eq
    intro i hi
    simp only [BitVec.getLsbD_and, BitVec.getLsbD_ofNat, BitVec.getLsbD_not, hi, decide_true,
      Bool.true_and, Nat.zero_testBit]
    by_cases hv : v.testBit i = true
    · simp only [hv, h i hi hv, Bool.not_true, Bool.and_false]
    · simp only [Bool.not_eq_true] at hv
      simp only [hv, Bool.false_and]

theorem not_covers {m : BitVec w} {v : ℕ} (i : ℕ) (hi : i < w)
    (hv : v.testBit i = true) (hm : m.getLsbD i = false) : ¬ Covers m v := by
  intro h
  simp [covers_iff.mp h i hi hv] at hm

namespace Below

theorem refl (m : BitVec w) : Below m m := fun _ h => h

theorem trans {a b c : BitVec w} (h : Below a b) (h' : Below b c) : Below a c :=
  fun i hi => h' i (h i hi)

theorem antisymm {a b : BitVec w} (h : Below a b) (h' : Below b a) : a = b := by
  apply BitVec.eq_of_getLsbD_eq
  intro i _
  exact Bool.eq_iff_iff.mpr ⟨h i, h' i⟩

theorem zero (m : BitVec w) : Below 0#w m := fun i h => by simp at h

theorem allOnes (m : BitVec w) : Below m (BitVec.allOnes w) := by
  intro i h
  simpa using BitVec.lt_of_getLsbD h

theorem or {a b a' b' : BitVec w} (ha : Below a a') (hb : Below b b') :
    Below (a ||| b) (a' ||| b') := by
  intro i h
  simp only [BitVec.getLsbD_or, Bool.or_eq_true] at h ⊢
  exact h.imp (ha i) (hb i)

theorem and {a b a' b' : BitVec w} (ha : Below a a') (hb : Below b b') :
    Below (a &&& b) (a' &&& b') := by
  intro i h
  simp only [BitVec.getLsbD_and, Bool.and_eq_true] at h ⊢
  exact h.imp (ha i) (hb i)

theorem or_left (a b : BitVec w) : Below a (a ||| b) := by
  intro i h
  simp [h]

theorem or_le {a b c : BitVec w} (ha : Below a c) (hb : Below b c) : Below (a ||| b) c := by
  intro i h
  simp only [BitVec.getLsbD_or, Bool.or_eq_true] at h
  exact h.elim (ha i) (hb i)

theorem and_left (a b : BitVec w) : Below (a &&& b) a := by
  intro i h
  simp_all

theorem and_right (a b : BitVec w) : Below (a &&& b) b := by
  intro i h
  simp_all

theorem shiftLeft {a b : BitVec w} (h : Below a b) (n : ℕ) : Below (a <<< n) (b <<< n) := by
  intro i hi
  simp only [BitVec.getLsbD_shiftLeft, Bool.and_eq_true] at hi ⊢
  exact ⟨hi.1, h _ hi.2⟩

theorem ushiftRight {a b : BitVec w} (h : Below a b) (n : ℕ) : Below (a >>> n) (b >>> n) := by
  intro i hi
  simp only [BitVec.getLsbD_ushiftRight] at hi ⊢
  exact h _ hi

/-- Set inclusion of bits is at most the order of the numbers. -/
theorem toNat_le {a b : BitVec w} (h : Below a b) : a.toNat ≤ b.toNat := by
  have he : a.toNat &&& b.toNat = a.toNat := by
    apply Nat.eq_of_testBit_eq
    intro i
    rw [Nat.testBit_and]
    cases ha : a.toNat.testBit i with
    | false => simp
    | true => exact (Bool.true_and _).trans (h i ha)
  rw [← he]
  exact Nat.and_le_right

end Below

theorem covers_zero (m : BitVec w) : Covers m 0 := covers_iff.mpr fun i _ h => by simp at h

theorem covers_self (m : BitVec w) : Covers m m.toNat := covers_iff.mpr fun _ _ h => h

/-- Only the window of the value matters. -/
theorem covers_congr {m : BitVec w} {v v' : ℕ} (h : ∀ i < w, v.testBit i = v'.testBit i) :
    Covers m v ↔ Covers m v' := by
  simp only [covers_iff]
  exact forall₂_congr fun i hi => by rw [h i hi]

theorem covers_and {a b : BitVec w} {x y : ℕ} (hx : Covers a x) (hy : Covers b y) :
    Covers (a &&& b) (x &&& y) := by
  rw [covers_iff] at *
  intro i hi h
  simp only [Nat.testBit_and, Bool.and_eq_true] at h
  simp [hx i hi h.1, hy i hi h.2]

theorem covers_or {a b : BitVec w} {x y : ℕ} (hx : Covers a x) (hy : Covers b y) :
    Covers (a ||| b) (x ||| y) := by
  rw [covers_iff] at *
  intro i hi h
  simp only [Nat.testBit_or, Bool.or_eq_true] at h
  rcases h with h | h
  · simp [hx i hi h]
  · simp [hy i hi h]

theorem covers_xor {a b : BitVec w} {x y : ℕ} (hx : Covers a x) (hy : Covers b y) :
    Covers (a ||| b) (x ^^^ y) := by
  rw [covers_iff] at *
  intro i hi h
  rw [Nat.testBit_xor] at h
  rcases Bool.eq_false_or_eq_true (x.testBit i) with h' | h'
  · simp [hx i hi h']
  · simp [hy i hi (by simpa [h'] using h)]

theorem covers_mod {m : BitVec w} {v : ℕ} (h : Covers m v) (n : ℕ) : Covers m (v % 2 ^ n) := by
  rw [covers_iff] at *
  intro i hi hb
  rw [Nat.testBit_mod_two_pow, Bool.and_eq_true] at hb
  exact h i hi hb.2

theorem le_toNat_of_covers {m : BitVec w} {v : ℕ} (h : Covers m v) (hv : v < 2 ^ w) :
    v ≤ m.toNat := by
  have hb : Below (BitVec.ofNat w v) m := by
    intro i hi
    rw [BitVec.getLsbD_ofNat, Bool.and_eq_true, decide_eq_true_eq] at hi
    exact covers_iff.mp h i hi.1 hi.2
  simpa [Nat.mod_eq_of_lt hv] using hb.toNat_le

/-- Covering is a matter of the bits below `w`, so a sum may be reduced modulo `2 ^ w`. -/
theorem covers_iff_ofNat {m : BitVec w} {v : ℕ} : Covers m v ↔ Below (BitVec.ofNat w v) m := by
  rw [covers_iff]
  constructor
  · intro h i hi
    rw [BitVec.getLsbD_ofNat, Bool.and_eq_true, decide_eq_true_eq] at hi
    exact h i hi.1 hi.2
  · intro h i hi hv
    exact h i (by simp only [BitVec.getLsbD_ofNat, hi, hv, decide_true, Bool.and_self])

/-- A carry into a position needs a set bit right below it. -/
theorem carry_succ {i : ℕ} (x y : BitVec w) (h : BitVec.carry (i + 1) x y false = true) :
    (x ||| y).getLsbD i = true := by
  rw [BitVec.carry_succ] at h
  rw [BitVec.getLsbD_or, Bool.or_eq_true]
  cases hx : x.getLsbD i <;> cases hy : y.getLsbD i <;> simp_all

theorem covers_add {a b : BitVec w} {x y : ℕ} (hx : Covers a x) (hy : Covers b y) :
    Covers ((a ||| b) ||| (a ||| b) <<< 1) (x + y) := by
  rw [covers_iff_ofNat] at *
  have hxy := hx.or hy
  intro i hi
  have hw : i < w := BitVec.lt_of_getLsbD hi
  rw [BitVec.ofNat_add, BitVec.getLsbD_add hw] at hi
  rw [BitVec.getLsbD_or, Bool.or_eq_true]
  by_cases hn : (BitVec.ofNat w x ||| BitVec.ofNat w y).getLsbD i = true
  · exact .inl (hxy i hn)
  · right
    simp only [BitVec.getLsbD_or, Bool.or_eq_true, not_or, Bool.not_eq_true] at hn
    rw [hn.1, hn.2, Bool.false_xor, Bool.false_xor] at hi
    cases i with
    | zero => simp at hi
    | succ i =>
      have hc := hxy i (carry_succ _ _ hi)
      simpa only [BitVec.getLsbD_shiftLeft, hw, decide_true, Bool.true_and, Nat.add_sub_cancel,
        show ¬ i + 1 < 1 by omega, decide_false, Bool.not_false] using hc

/-- A number below `2 ^ k` is covered by any mask with the low `k` bits. -/
theorem covers_of_lt {m : BitVec w} {v k : ℕ} (hv : v < 2 ^ k)
    (hm : ∀ i < w, i < k → m.getLsbD i = true) : Covers m v := by
  rw [covers_iff]
  intro i hi hb
  apply hm i hi
  by_contra hk
  rw [Nat.testBit_lt_two_pow (hv.trans_le (Nat.pow_le_pow_right (by omega) (by omega)))] at hb
  cases hb

theorem two_pow_dvd_of_covers {m : BitVec w} {v l : ℕ} (h : Covers m v) (hv : v < 2 ^ w)
    (hm : ∀ i < l, m.getLsbD i = false) : 2 ^ l ∣ v := by
  apply Nat.dvd_of_mod_eq_zero
  apply Nat.eq_of_testBit_eq
  intro i
  rw [Nat.testBit_mod_two_pow, Nat.zero_testBit]
  by_cases hi : i < l
  · by_cases hb : v.testBit i = true
    · have hw : i < w := by
        by_contra hw
        rw [Nat.testBit_lt_two_pow
          (hv.trans_le (Nat.pow_le_pow_right two_pos (not_lt.mp hw)))] at hb
        cases hb
      have := covers_iff.mp h i hw hb
      rw [hm i hi] at this
      cases this
    · simp [hb]
  · simp [hi]

end Window
