import Mosura.CircleRange
import Mosura.CompareSound
import Mosura.Lib.Arc

/-! The values a circular range holds, and the overlap table of its operations. -/

namespace Mosura.CircleRange
open Arc

variable {n : ℕ} {R S : CircleRange} {l r l2 r2 x v size : ℕ}

/-- Bounds inside an `n`-bit domain, a power of two as step, and both bounds of one phase. -/
structure WellFormed (n : ℕ) (R : CircleRange) : Prop where
  mask : R.mask = 2 ^ n - 1
  left : R.left ≤ R.mask
  right : R.right ≤ R.mask
  step : ∃ k ≤ 30, R.step = 2 ^ k
  phase : R.right % R.stepU = R.left % R.stepU

theorem asU64_two_pow {k : ℕ} (hk : k ≤ 30) : asU64 (2 ^ k) = 2 ^ k := by
  have h : (2 : ℕ) ^ k < 2 ^ 64 := Nat.pow_lt_pow_right (by norm_num) (by omega)
  unfold asU64
  rw [show ((2 : ℤ) ^ k) = ((2 ^ k : ℕ) : ℤ) by push_cast; rfl]
  generalize 2 ^ k = m at h
  omega

theorem asU32_two_pow {k : ℕ} (hk : k ≤ 30) : asU32 (2 ^ k) = 2 ^ k := by
  have h : (2 : ℕ) ^ k < 2 ^ 32 := Nat.pow_lt_pow_right (by norm_num) (by omega)
  unfold asU32
  rw [show ((2 : ℤ) ^ k) = ((2 ^ k : ℕ) : ℤ) by push_cast; rfl]
  generalize 2 ^ k = m at h
  omega

namespace WellFormed

theorem stepU_eq (h : R.WellFormed n) : ∃ k ≤ 30, R.step = 2 ^ k ∧ R.stepU = 2 ^ k := by
  obtain ⟨k, hk, hstep⟩ := h.step
  refine ⟨k, hk, hstep, ?_⟩
  rw [stepU, hstep, asU64_two_pow hk]

theorem stepU_pos (h : R.WellFormed n) : 0 < R.stepU := by
  obtain ⟨k, _, _, hU⟩ := h.stepU_eq
  rw [hU]
  exact Nat.two_pow_pos k

theorem step_eq (h : R.WellFormed n) : R.step = (R.stepU : ℤ) := by
  obtain ⟨k, _, hstep, hU⟩ := h.stepU_eq
  rw [hstep, hU]
  push_cast
  rfl

theorem left_lt (h : R.WellFormed n) : R.left < 2 ^ n := by
  have := h.left
  have := Nat.two_pow_pos n
  rw [h.mask] at *
  omega

theorem right_lt (h : R.WellFormed n) : R.right < 2 ^ n := by
  have := h.right
  have := Nat.two_pow_pos n
  rw [h.mask] at *
  omega

/-- The step divides the size of the domain, or is larger. -/
theorem stepU_dvd_or (h : R.WellFormed n) : R.stepU ∣ 2 ^ n ∨ 2 ^ n ∣ R.stepU := by
  obtain ⟨k, _, _, hU⟩ := h.stepU_eq
  rw [hU]
  rcases Nat.le_total k n with hkn | hkn
  · exact .inl (Nat.pow_dvd_pow 2 hkn)
  · exact .inr (Nat.pow_dvd_pow 2 hkn)

end WellFormed

/-- A range holds the values of its phase on its arc. -/
theorem containsVal_iff (h1 : R.step = 1 → R.stepU = 1) : R.containsVal v = true ↔
    R.isempty = false ∧ v % R.stepU = R.left % R.stepU ∧ Mem R.left R.right v := by
  unfold containsVal Mem
  cases R.isempty with
  | true => simp
  | false =>
    have hphase : (R.step ≠ 1 ∧ R.left % R.stepU ≠ v % R.stepU) ↔
        ¬v % R.stepU = R.left % R.stepU := by
      constructor
      · rintro ⟨_, h⟩ he
        exact h he.symm
      · intro h
        refine ⟨fun hs => h ?_, fun he => h he.symm⟩
        rw [h1 hs, Nat.mod_one, Nat.mod_one]
    simp only [Bool.false_eq_true, if_false, hphase, true_and]
    by_cases hp : v % R.stepU = R.left % R.stepU
    · simp only [hp, not_true_eq_false, if_false, true_and]
      split_ifs <;> simp only [true_iff, false_iff] <;> omega
    · simp only [hp, not_false_eq_true, if_true, Bool.false_eq_true, false_and]

theorem WellFormed.containsVal_iff (h : R.WellFormed n) : R.containsVal v = true ↔
    R.isempty = false ∧ v % R.stepU = R.left % R.stepU ∧ Mem R.left R.right v := by
  refine CircleRange.containsVal_iff fun hs => ?_
  have := h.step_eq
  omega

theorem containsVal_of_isempty (h : R.isempty = true) : R.containsVal v = false := by
  unfold containsVal
  rw [if_pos h]

/-- A range that is not marked empty holds its left boundary. -/
theorem WellFormed.containsVal_left (h : R.WellFormed n) (he : R.isempty = false) :
    R.containsVal R.left = true :=
  h.containsVal_iff.mpr ⟨he, rfl, mem_left⟩

/-- New boundaries in place of the old ones. -/
theorem containsVal_bounds (hR : R.WellFormed n) (l r v : ℕ) :
    containsVal { R with left := l, right := r } v = true ↔
      R.isempty = false ∧ v % R.stepU = l % R.stepU ∧ Mem l r v :=
  CircleRange.containsVal_iff fun h1 => by
    have h := hR.step_eq
    rw [show R.step = 1 from h1] at h
    change R.stepU = 1
    omega

/-! Words cut down to the domain. -/

theorem maskOf_eq (h : size ≤ 8) : maskOf size = 2 ^ (8 * size) - 1 := calcMask_toNat h

theorem maskOf_lt : maskOf size < 2 ^ 64 := (calcMask size).isLt

theorem wrappingAdd_and (hn : n ≤ 64) (a b : ℕ) :
    wrappingAdd a b &&& 2 ^ n - 1 = (a + b) % 2 ^ n := by
  rw [wrappingAdd, Nat.and_two_pow_sub_one_eq_mod, Nat.mod_mod_of_dvd _ (Nat.pow_dvd_pow 2 hn)]

theorem wrappingSub_and (hn : n ≤ 64) (a b : ℕ) :
    wrappingSub a b &&& 2 ^ n - 1 = (a + (2 ^ 64 - b)) % 2 ^ n := by
  rw [wrappingSub, Nat.and_two_pow_sub_one_eq_mod, Nat.mod_mod_of_dvd _ (Nat.pow_dvd_pow 2 hn)]

/-- Adding a whole number of turns. -/
theorem add_word_mod (hn : n ≤ 64) (a : ℕ) : (a + 2 ^ 64) % 2 ^ n = a % 2 ^ n := by
  rw [Nat.add_mod, Nat.mod_eq_zero_of_dvd (Nat.pow_dvd_pow 2 hn), Nat.add_zero, Nat.mod_mod]

theorem mod_word_and_mask (hn : n ≤ 64) (x : ℕ) : x % 2 ^ 64 &&& 2 ^ n - 1 = x % 2 ^ n := by
  rw [Nat.and_two_pow_sub_one_eq_mod, Nat.mod_mod_of_dvd _ (Nat.pow_dvd_pow 2 hn)]

theorem and_mask_lt (hm : R.mask = 2 ^ n - 1) (v : ℕ) : v &&& R.mask < 2 ^ n := by
  rw [hm, Nat.and_two_pow_sub_one_eq_mod]
  exact Nat.mod_lt _ (Nat.two_pow_pos n)

/-- A range `is_single` where its right boundary is one stride up. -/
theorem WellFormed.isSingle_iff (hn : n ≤ 64) (h : R.WellFormed n) :
    R.isSingle = true ↔ R.isempty = false ∧ R.right = (R.left + R.stepU) % 2 ^ n := by
  rw [isSingle, h.mask, wrappingAdd_and hn]
  simp

/-- What each overlap category says of the values on both arcs. -/
def Overlap.Shape (l r l2 r2 : ℕ) : Overlap → Prop
  | .a | .f => ∀ x, ¬(Mem l r x ∧ Mem l2 r2 x)
  | .b => ∀ x, Mem l r x ∧ Mem l2 r2 x ↔ l2 ≠ r ∧ Mem l2 r x
  | .c => ∀ x, Mem l r x ∧ Mem l2 r2 x ↔ Mem l2 r2 x
  | .d => ∀ x, Mem l r x ∧ Mem l2 r2 x ↔ Mem l r x
  | .e => ∀ x, Mem l r x ∧ Mem l2 r2 x ↔ l ≠ r2 ∧ Mem l r2 x
  | .g => (l = r2 → ∀ x, Mem l r x ∧ Mem l2 r2 x ↔ l2 ≠ r ∧ Mem l2 r x) ∧
      (l2 = r → ∀ x, Mem l r x ∧ Mem l2 r2 x ↔ l ≠ r2 ∧ Mem l r2 x) ∧
      (l ≠ r2 → l2 ≠ r → l2 < r ∧ r < l ∧ l < r2 ∨ r < l ∧ l < r2 ∧ r2 < l2 ∨
        l < r2 ∧ r2 < l2 ∧ l2 < r ∨ r2 < l2 ∧ l2 < r ∧ r < l)

/-- The table entry of two arcs describes them. -/
theorem encodeRangeOverlaps_shape (h : l ≠ r) (h2 : l2 ≠ r2) :
    Overlap.Shape l r l2 r2 (encodeRangeOverlaps l r l2 r2) := by
  unfold encodeRangeOverlaps
  split_ifs <;>
    simp only [Nat.reduceOr, arrange, List.getD_eq_getElem?_getD, List.getElem?_cons_succ,
      List.getElem?_cons_zero, Option.getD_some, Overlap.Shape] <;>
    unfold Mem
  all_goals first
    | omega
    | exact ⟨fun _ x => by omega, fun _ x => by omega, by omega⟩

/-- `meet` of two ranges with one step, on the arcs of both. -/
theorem meet_some {p : Bounds} (he : R.isempty = false) (h : R.meet p = some S) (x : ℕ) :
    (S.isempty = false ∧ Mem S.left S.right x) ↔ Mem p.1.1 p.1.2 x ∧ Mem p.2.1 p.2.2 x := by
  obtain ⟨⟨l, r⟩, l2, r2⟩ := p
  simp only [meet] at h
  by_cases h1 : l = r
  · subst h1
    simp only [if_true, Option.some.injEq] at h
    subst h
    simp only [he, mem_full, true_and]
  by_cases h2 : l2 = r2
  · subst h2
    simp only [if_neg h1, if_true, Option.some.injEq] at h
    subst h
    simp only [he, mem_full, true_and, and_true]
  have hs := encodeRangeOverlaps_shape h1 h2
  rw [if_neg h1, if_neg h2] at h
  have hcut : ∀ a b, ((R.cut a b).isempty = false ∧ Mem (R.cut a b).left (R.cut a b).right x) ↔
      a ≠ b ∧ Mem a b x := by
    intro a b
    simp only [cut, he, Bool.false_or, beq_eq_false_iff_ne]
  cases ho : encodeRangeOverlaps l r l2 r2 <;> simp only [ho, Overlap.Shape] at h hs
  case a | f =>
    cases h
    simp [hs x]
  case b | e =>
    cases h
    rw [hcut, hs x]
  case c | d =>
    cases h
    simp only [he, true_and, hs x]
  case g =>
    split_ifs at h with h3 h4
    · cases h
      rw [hcut, hs.1 h3 x]
    · cases h
      rw [hcut, hs.2.1 h4 x]

/-- The start of what is left is the start of one of the arcs. -/
theorem meet_left {p : Bounds} (h : R.meet p = some S) :
    S.mask = R.mask ∧ S.step = R.step ∧
      (S.isempty = true ∨ S.left = p.1.1 ∨ S.left = p.2.1) := by
  obtain ⟨⟨l, r⟩, l2, r2⟩ := p
  simp only [meet] at h
  cases ho : encodeRangeOverlaps l r l2 r2 <;> simp only [ho] at h <;> split_ifs at h <;> cases h <;>
    simp only [cut, true_or, or_true, and_self]

/-- The end of what is left is the end of one of the arcs. -/
theorem meet_right {p : Bounds} (h : R.meet p = some S) :
    S.isempty = true ∨ S.right = p.1.2 ∨ S.right = p.2.2 := by
  obtain ⟨⟨l, r⟩, l2, r2⟩ := p
  simp only [meet] at h
  cases ho : encodeRangeOverlaps l r l2 r2 <;> simp only [ho] at h <;> split_ifs at h <;> cases h <;>
    simp only [cut, true_or, or_true]

/-- `meet` fails on two arcs that cross twice. -/
theorem meet_eq_none {p : Bounds} : R.meet p = none ↔
    p.1.1 ≠ p.1.2 ∧ p.2.1 ≠ p.2.2 ∧ p.1.1 ≠ p.2.2 ∧ p.2.1 ≠ p.1.2 ∧
      encodeRangeOverlaps p.1.1 p.1.2 p.2.1 p.2.2 = .g := by
  obtain ⟨⟨l, r⟩, l2, r2⟩ := p
  simp only [meet]
  by_cases h1 : l = r
  · simp [h1]
  by_cases h2 : l2 = r2
  · simp [h1, h2]
  simp only [ne_eq, h1, h2, if_false, not_false_eq_true, true_and]
  cases encodeRangeOverlaps l r l2 r2
  case g =>
    by_cases h3 : l = r2
    · simp only [h3, if_true, reduceCtorEq, not_true_eq_false, false_and]
    · by_cases h4 : l2 = r
      · simp only [h3, h4, if_false, if_true, reduceCtorEq, not_true_eq_false, false_and,
          and_false]
      · simp only [h3, h4, if_false, not_false_eq_true, and_self]
  all_goals simp only [reduceCtorEq, and_false]

end Mosura.CircleRange
