import Mosura.Lib.Runs
import Mosura.RangeMembers

/-! `set_nz_mask`: when the range built from a mask holds all the values that the mask admits. -/

namespace Mosura.CircleRange
open Arc Window

variable {n k a b size v : ℕ} {R : CircleRange} {nzmask : U64}

theorem bitTransitionsFrom_eq (k : ℕ) (val : U64) (res : ℕ) :
    bitTransitionsFrom k val (val.getLsbD 0) res = res + Runs.changes val.getLsbD k := by
  induction k generalizing val res with
  | zero => rfl
  | succ k ih =>
    have hshift : ∀ i, (val >>> 1).getLsbD i = val.getLsbD (i + 1) := by
      intro i
      rw [BitVec.getLsbD_ushiftRight, Nat.add_comm]
    have htail : Runs.changes (val >>> 1).getLsbD k = Runs.changes (fun i => val.getLsbD (i + 1)) k :=
      Runs.changes_congr fun i _ => hshift i
    rw [bitTransitionsFrom, Runs.changes, ← htail]
    simp only [hshift 0, Nat.zero_add]
    by_cases hz : val >>> 1 = 0
    · -- the bits left are zero
      have hrest : Runs.changes (val >>> 1).getLsbD k = 0 :=
        Runs.changes_const (b := false) fun i _ => by rw [hz]; exact BitVec.getLsbD_zero
      rw [if_pos hz, hrest]
      split_ifs <;> rfl
    · have h1 := ih (val >>> 1)
      rw [hshift 0] at h1
      rw [if_neg hz, h1]
      split_ifs <;> ring

theorem bitTransitions_eq (val : U64) (size : ℕ) :
    bitTransitions val size = Runs.changes val.getLsbD (8 * size - 1) := by
  rw [bitTransitions, bitTransitionsFrom_eq, Nat.zero_add]

/-- The bits of a mask below `n` are those from `a` up to `b`. -/
structure Section (nzmask : U64) (n a b : ℕ) : Prop where
  lt : a < b
  le : b ≤ n
  bits : ∀ i < n, nzmask.getLsbD i = true ↔ a ≤ i ∧ i < b

/-- A mask with a transition that forms a range is one section of bits, up from its lowest. -/
theorem exists_section (hn : 0 < size) (h0 : bitTransitions nzmask size ≠ 0)
    (h2 : bitTransitions nzmask size ≤ 2)
    (h1 : nzmask.getLsbD 0 = true → bitTransitions nzmask size ≠ 2) :
    ∃ a b, Section nzmask (8 * size) a b := by
  rw [bitTransitions_eq] at h0 h1 h2
  have hdiff : ¬∀ i < 8 * size, nzmask.getLsbD i = nzmask.getLsbD 0 := fun h =>
    h0 (Runs.changes_const fun i hi => h i (by omega))
  cases hb : nzmask.getLsbD 0 with
  | false =>
    obtain ⟨a, b, ha, hab, hruns⟩ := Runs.three_runs h2
    rw [hb] at hruns hdiff
    have hbits : ∀ i < 8 * size, nzmask.getLsbD i = true ↔ a ≤ i ∧ i < b := by
      intro i hi
      rw [← Bool.not_eq_false, hruns i (by omega)]
      omega
    -- some bit is set, so the section begins within the value
    have hsome : ∃ i < 8 * size, a ≤ i ∧ i < b := by
      by_contra hno
      exact hdiff fun i hi => (hruns i (by omega)).mpr (by
        by_contra hne
        exact hno ⟨i, hi, by omega⟩)
    obtain ⟨i, hi, hai, hib⟩ := hsome
    exact ⟨a, min b (8 * size), by omega, by omega, fun j hj => by rw [hbits j hj]; omega⟩
  | true =>
    obtain ⟨a, ha, hruns⟩ := Runs.two_runs (show Runs.changes nzmask.getLsbD (8 * size - 1) ≤ 1 by
      have := h1 hb
      omega)
    rw [hb] at hruns
    exact ⟨0, min a (8 * size), by omega, by omega, fun i hi => by rw [hruns i (by omega)]; omega⟩

variable (hS : Section nzmask n a b)
include hS

theorem Section.leastsigbit : leastsigbitSet nzmask = some a := by
  have := hS.lt
  have := hS.le
  refine leastsigbitSet_eq_some.mpr ⟨(hS.bits a (by omega)).mpr (by omega), fun i hi => ?_⟩
  rw [Bool.eq_false_iff, ne_eq, hS.bits i (by omega)]
  omega

/-- The value of the mask within the domain. -/
theorem Section.toNat_mod : nzmask.toNat % 2 ^ n = 2 ^ b - 2 ^ a := by
  have hlt := hS.lt
  have hle := hS.le
  have hshift : 2 ^ b - 2 ^ a = (2 ^ (b - a) - 1) <<< a := by
    rw [Nat.shiftLeft_eq, Nat.sub_mul, Nat.one_mul, ← Nat.pow_add, Nat.sub_add_cancel hlt.le]
  rw [hshift]
  apply Nat.eq_of_testBit_eq
  intro i
  rw [Nat.testBit_mod_two_pow, Nat.testBit_shiftLeft, Nat.testBit_two_pow_sub_one, Bool.eq_iff_iff]
  simp only [Bool.and_eq_true, decide_eq_true_eq]
  constructor
  · rintro ⟨hi, hbit⟩
    have := (hS.bits i hi).mp hbit
    omega
  · rintro ⟨hai, hib⟩
    exact ⟨by omega, (hS.bits i (by omega)).mpr (by omega)⟩

/-- What a section of bits admits. -/
theorem Section.admits (hn : n ≤ 64) (hv : v < 2 ^ n) (hc : Covers nzmask v) :
    v % 2 ^ a = 0 ∧ v + 2 ^ a ≤ 2 ^ b := by
  have hlt := hS.lt
  have hle := hS.le
  have hbit : ∀ i, v.testBit i = true → a ≤ i ∧ i < b := by
    intro i hi
    have hin : i < n := by
      by_contra hge
      rw [Nat.testBit_lt_two_pow (hv.trans_le (Nat.pow_le_pow_right two_pos (by omega)))] at hi
      cases hi
    exact (hS.bits i hin).mp (covers_iff.mp hc i (by omega) hi)
  have hvb : v < 2 ^ b := by
    apply Nat.lt_pow_two_of_testBit
    intro i hi
    by_contra hne
    have := hbit i (Bool.not_eq_false _ ▸ hne)
    omega
  have hva : v % 2 ^ a = 0 := by
    apply Nat.eq_of_testBit_eq
    intro i
    rw [Nat.testBit_mod_two_pow, Nat.zero_testBit, Bool.and_eq_false_iff, decide_eq_false_iff_not]
    by_contra hne
    obtain ⟨hi, hne⟩ := not_or.mp hne
    have := hbit i (Bool.not_eq_false _ ▸ hne)
    omega
  refine ⟨hva, ?_⟩
  have hd : 2 ^ a ∣ 2 ^ b - v := Nat.dvd_sub (Nat.pow_dvd_pow 2 hlt.le) (Nat.dvd_of_mod_eq_zero hva)
  have := Nat.le_of_dvd (by omega) hd
  omega

omit hS

/-! The stride. -/

theorem asU64_shl_step {i : ℕ} (hi : i < 32) :
    asU64 (asI32 (1 <<< i)) = if i = 31 then 2 ^ 64 - 2 ^ 31 else 2 ^ i := by
  revert i
  decide

theorem containsVal_from_zero {r m : ℕ} {t : ℤ} :
    containsVal { left := 0, right := r, mask := m, isempty := false, step := t } v = true ↔
      v % asU64 t = 0 ∧ Mem 0 r v := by
  have h := @CircleRange.containsVal_iff
    { left := 0, right := r, mask := m, isempty := false, step := t } v fun h => by
      change t = 1 at h
      change asU64 t = 1
      rw [h]
      decide
  rw [h]
  change false = false ∧ v % asU64 t = 0 % asU64 t ∧ Mem 0 r v ↔ _
  rw [Nat.zero_mod]
  exact and_iff_right rfl

/-- The range built from a section holds all it admits unless its stride is the sign of an `i32`. -/
theorem Section.contains_iff (hn : n ≤ 64) (hS : Section nzmask n a b) {r : ℕ}
    (hr : r = (nzmask.toNat + asU64 (asI32 (1 <<< (a % 32)))) % 2 ^ n) :
    (∀ v < 2 ^ n, Covers nzmask v → v % asU64 (asI32 (1 <<< (a % 32))) = 0 ∧ Mem 0 r v) ↔
      a % 32 ≠ 31 := by
  have hlt := hS.lt
  have hle := hS.le
  have hstep := asU64_shl_step (Nat.mod_lt a (show 0 < 32 by norm_num))
  constructor
  · -- the lowest bit is admitted, and is no multiple of the sign-extended stride
    intro h hbad
    rw [if_pos hbad] at hstep
    have hcov : Covers nzmask (2 ^ a) := by
      refine covers_iff.mpr fun i hi hbit => ?_
      rw [Nat.testBit_two_pow, decide_eq_true_eq] at hbit
      subst hbit
      exact (hS.bits a (by omega)).mpr (by omega)
    have hphase := (h (2 ^ a) (Nat.pow_lt_pow_right (by norm_num) (by omega)) hcov).1
    have h63 : (2 : ℕ) ^ a ≤ 2 ^ 63 := Nat.pow_le_pow_right two_pos (by omega)
    rw [hstep, Nat.mod_eq_of_lt (by omega)] at hphase
    exact absurd hphase (Nat.two_pow_pos a).ne'
  · intro hok v hv hc
    rw [if_neg hok] at hstep
    rw [hstep] at hr ⊢
    obtain ⟨hphase, htop⟩ := hS.admits hn hv hc
    have hdvd : 2 ^ (a % 32) ∣ 2 ^ a := Nat.pow_dvd_pow 2 (Nat.mod_le a 32)
    have hsmall : (2 : ℕ) ^ (a % 32) ≤ 2 ^ a := Nat.le_of_dvd (Nat.two_pow_pos a) hdvd
    have hpos := Nat.two_pow_pos (a % 32)
    have hbn : (2 : ℕ) ^ b ≤ 2 ^ n := Nat.pow_le_pow_right two_pos hle
    refine ⟨Nat.mod_eq_zero_of_dvd (hdvd.trans (Nat.dvd_of_mod_eq_zero hphase)), ?_⟩
    rw [Nat.add_mod, hS.toNat_mod, Nat.add_mod_mod] at hr
    rcases (show 2 ^ b - 2 ^ a + 2 ^ (a % 32) ≤ 2 ^ n by omega).lt_or_eq with hlt' | heq
    · rw [Nat.mod_eq_of_lt hlt'] at hr
      unfold Mem
      omega
    · rw [heq, Nat.mod_self] at hr
      rw [hr]
      exact mem_full

/-- The mask of a value without transitions admits 0 alone, or has all bits. -/
theorem bits_of_no_transition (ht : bitTransitions nzmask size = 0) :
    ∀ i < 8 * size, nzmask.getLsbD i = nzmask.getLsbD 0 := by
  rw [bitTransitions_eq] at ht
  exact fun i hi => Runs.const_of_changes ht i (by omega)

/-- The three ranges that `set_nz_mask` builds. -/
theorem setNzMask_cases (h : (setNzMask R nzmask size).1 = true) :
    let S : CircleRange := { R with isempty := false, mask := maskOf size }
    let t := asI32 (1 <<< ((leastsigbitSet nzmask).getD (2 ^ 32 - 1) % 32))
    bitTransitions nzmask size = 0 ∧ nzmask.getLsbD 0 = false ∧
        (setNzMask R nzmask size).2 = { S with step := 1, left := 0, right := 1 } ∨
      bitTransitions nzmask size = 0 ∧ nzmask.getLsbD 0 = true ∧
        (setNzMask R nzmask size).2 = { S with step := 1, left := 0, right := 0 } ∨
      bitTransitions nzmask size ≠ 0 ∧ bitTransitions nzmask size ≤ 2 ∧
        (nzmask.getLsbD 0 = true → bitTransitions nzmask size ≠ 2) ∧
        (setNzMask R nzmask size).2 =
          { S with step := t, left := 0,
                   right := wrappingAdd nzmask.toNat (asU64 t) &&& maskOf size } := by
  unfold setNzMask at h ⊢
  by_cases h2 : 2 < bitTransitions nzmask size
  · rw [if_pos h2] at h
    cases h
  rw [if_neg h2] at h ⊢
  cases hb : nzmask.getLsbD 0 <;> by_cases ht : bitTransitions nzmask size = 0 <;>
    by_cases ht2 : bitTransitions nzmask size = 2 <;>
    simp_all

/-- The range that `set_nz_mask` builds holds every value the mask admits, unless the lowest bit of
the mask is bit 31 or bit 63. -/
theorem setNzMask_admits_iff (h0 : 0 < size) (h8 : size ≤ 8)
    (h : (setNzMask R nzmask size).1 = true) :
    (∀ v ≤ maskOf size, BitVec.ofNat 64 v &&& ~~~nzmask = 0 →
        (setNzMask R nzmask size).2.containsVal v = true) ↔
      ∀ l < 8 * size, leastsigbitSet nzmask = some l → l ≠ 31 ∧ l ≠ 63 := by
  have hn : 8 * size ≤ 64 := by omega
  have hmask : ∀ v, v ≤ maskOf size ↔ v < 2 ^ (8 * size) := by
    intro v
    have := Nat.two_pow_pos (8 * size)
    rw [maskOf_eq h8]
    omega
  simp only [hmask]
  rcases setNzMask_cases h with ⟨ht, hb, hR⟩ | ⟨ht, hb, hR⟩ | ⟨ht, ht2, hb, hR⟩ <;> rw [hR]
  · -- no bit is set within the value
    have hbits := bits_of_no_transition ht
    rw [hb] at hbits
    refine iff_of_true (fun v hv hc => ?_) fun l hl hleast => ?_
    · have hv0 : v = 0 := by
        apply Nat.eq_of_testBit_eq
        intro i
        rw [Nat.zero_testBit, Bool.eq_false_iff]
        intro hbit
        have hi : i < 8 * size := by
          by_contra hge
          rw [Nat.testBit_lt_two_pow (hv.trans_le (Nat.pow_le_pow_right two_pos (by omega)))] at hbit
          cases hbit
        have := covers_iff.mp hc i (by omega) hbit
        rw [hbits i hi] at this
        cases this
      rw [hv0, containsVal_from_zero]
      decide
    · have := (leastsigbitSet_eq_some.mp hleast).1
      rw [hbits l hl] at this
      cases this
  · -- every bit is set
    have hleast : leastsigbitSet nzmask = some 0 :=
      leastsigbitSet_eq_some.mpr ⟨hb, fun i hi => absurd hi (Nat.not_lt_zero i)⟩
    refine iff_of_true (fun v _ _ => ?_) fun l _ hl => ?_
    · rw [containsVal_from_zero, show asU64 1 = 1 by decide, Nat.mod_one]
      exact ⟨rfl, mem_full⟩
    · rw [hleast, Option.some.injEq] at hl
      omega
  · obtain ⟨a, b, hS⟩ := exists_section h0 ht ht2 hb
    have hlt := hS.lt
    have hle := hS.le
    simp only [hS.leastsigbit, Option.getD_some, Option.some.injEq, containsVal_from_zero, maskOf_eq h8,
      wrappingAdd_and hn]
    rw [show (∀ l < 8 * size, a = l → l ≠ 31 ∧ l ≠ 63) ↔ a % 32 ≠ 31 from
      ⟨fun h => by have := h a (by omega) rfl; omega, fun h l _ hl => by omega⟩]
    exact hS.contains_iff hn rfl

/-- The bits 4 to 6 of a byte. -/
theorem setNzMask_admits_iff_byte :
    (∀ v ≤ maskOf 1, BitVec.ofNat 64 v &&& ~~~(0x70 : U64) = 0 →
        (setNzMask { left := 0, right := 0, mask := 0, isempty := true, step := 1 } 0x70 1).2.containsVal
          v = true) ↔
      ∀ l < 8 * 1, leastsigbitSet (0x70 : U64) = some l → l ≠ 31 ∧ l ≠ 63 :=
  setNzMask_admits_iff (by decide) (by decide) (by decide)

/-- The sign bit of a 4-byte value is a valid mask, and the range built from it lacks the sign bit. -/
theorem setNzMask_loses_sign : ¬∀ (R : CircleRange) (nzmask : U64) (size : ℕ), 0 < size → size ≤ 8 →
    (setNzMask R nzmask size).1 = true → ∀ v ≤ maskOf size, BitVec.ofNat 64 v &&& ~~~nzmask = 0 →
      (setNzMask R nzmask size).2.containsVal v = true := by
  intro h
  have := h { left := 0, right := 0, mask := 0, isempty := true, step := 1 } 0x80000000 4 (by decide)
    (by decide) (by decide) 0x80000000 (by decide) (by decide)
  revert this
  decide

end Mosura.CircleRange
