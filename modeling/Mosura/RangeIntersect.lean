import Mosura.RangeMembers

/-! `intersect` of two ranges over one domain: when its answer is the common values. -/

namespace Mosura.CircleRange
open Arc

variable {n t k j ρ rem b : ℕ} {A B R S : CircleRange}

/-- The answer of `intersect` is right: 0 with a range of exactly the common values, marked empty if
there are none, or 2 with the range unchanged, and no range holds exactly the common values. -/
def IntersectExact (n : ℕ) (A B : CircleRange) : Prop :=
  ∃ ret C, A.intersect B = some (ret, C) ∧
    (ret = 0 ∧ (∀ v < 2 ^ n, C.containsVal v = true ↔
          A.containsVal v = true ∧ B.containsVal v = true) ∧
        (C.isempty = true ↔ ∀ v < 2 ^ n, ¬(A.containsVal v = true ∧ B.containsVal v = true)) ∨
      ret = 2 ∧ C = A ∧ ¬∃ D : CircleRange, D.WellFormed n ∧
        ∀ v < 2 ^ n, D.containsVal v = true ↔ A.containsVal v = true ∧ B.containsVal v = true)

/-- Two arcs of stride `t` that cross twice and share one value at each crossing, the two values a
power of two apart that fits a step. -/
def LonePair (n t : ℕ) (p : Bounds) : Prop :=
  p.1.1 ≠ p.1.2 ∧ p.2.1 ≠ p.2.2 ∧ p.1.1 ≠ p.2.2 ∧ p.2.1 ≠ p.1.2 ∧
    encodeRangeOverlaps p.1.1 p.1.2 p.2.1 p.2.2 = .g ∧
    p.1.2 = (p.2.1 + t) % 2 ^ n ∧ p.2.2 = (p.1.1 + t) % 2 ^ n ∧
    ∃ k ≤ 30, (p.2.1 + 2 ^ k) % 2 ^ n = p.1.1 ∨ (p.1.1 + 2 ^ k) % 2 ^ n = p.2.1

/-- When the range `S` can be moved to the larger stride of `T`: of one phase, both or neither of
its boundaries pass the modulus on the way to the next value of `T`'s phase, and the moved
boundaries make no lone pair. -/
def StrideExact (n : ℕ) (S T : CircleRange) (bounds : ℕ → ℕ → Bounds) : Prop :=
  let rem := T.left % T.stepU
  S.left % S.stepU = rem % S.stepU →
    if 2 ^ n ≤ up T.stepU rem S.left ↔ 2 ^ n ≤ up T.stepU rem S.right then
      ¬LonePair n T.stepU
        (bounds (up T.stepU rem S.left % 2 ^ n) (up T.stepU rem S.right % 2 ^ n))
    else (∀ v < 2 ^ n, ¬(S.containsVal v = true ∧ T.containsVal v = true)) ∧
      (S.left < S.right ∨ rem < S.right)

/-- The inputs on which `intersect` is exact. -/
def IntersectExactWhen (n : ℕ) (A B : CircleRange) : Prop :=
  A.isempty = true ∨ B.isempty = true ∨
    if A.step = B.step then
      if A.left % A.stepU = B.left % A.stepU then
        ¬LonePair n A.stepU ((A.left, A.right), B.left, B.right)
      else ∀ v < 2 ^ n, ¬(Mem A.left A.right v ∧ Mem B.left B.right v)
    else if A.step < B.step then StrideExact n A B fun l r => ((l, r), B.left, B.right)
    else StrideExact n B A fun l r => ((A.left, A.right), l, r)

/-! The move to a larger stride. -/

theorem raise_eq (hk : k ≤ 30) (hrem : rem < 2 ^ k) :
    raise (2 ^ k) rem b = some (up (2 ^ k) rem b % 2 ^ 64) := by
  have hk32 : (2 : ℕ) ^ k ≤ 2 ^ 30 := Nat.pow_le_pow_right two_pos hk
  have hb : b % 2 ^ k < 2 ^ k := Nat.mod_lt _ (Nat.two_pow_pos k)
  unfold raise up
  rw [asU64_two_pow hk, asU32_two_pow hk]
  generalize 2 ^ k = s at *
  rw [Nat.mod_eq_of_lt (show b % s < 2 ^ 32 by omega)]
  by_cases hlt : rem < b % s
  · simp only [if_pos hlt, addU32, if_pos (show rem + s < 2 ^ 32 by omega), Option.bind_some, subU64,
      if_pos (show b % s ≤ rem + s by omega), Option.map_some, wrappingAdd]
    rw [Nat.mod_eq_of_lt (show rem + s - b % s < s by omega)]
  · simp only [if_neg hlt, wrappingAdd]
    rw [show rem + s - b % s = rem - b % s + s by omega, Nat.add_mod_right,
      Nat.mod_eq_of_lt (show rem - b % s < s by omega)]

/-- A range off the phase has nothing left; any other moves both boundaries up to the phase, and
has nothing left if that changes their order. -/
theorem newStride_eq (hn : n ≤ 64) (hk : k ≤ 30) (hj : j ≤ 30) (hrem : rem < 2 ^ k) {l r : ℕ} :
    newStride (2 ^ n - 1) (2 ^ k) (2 ^ j) rem l r = some
      (if l % 2 ^ j ≠ rem % 2 ^ j then (true, l, r)
      else (decide (l < r) != decide (up (2 ^ k) rem l % 2 ^ n < up (2 ^ k) rem r % 2 ^ n),
        up (2 ^ k) rem l % 2 ^ n, up (2 ^ k) rem r % 2 ^ n)) := by
  have hj32 : (2 : ℕ) ^ j ≤ 2 ^ 30 := Nat.pow_le_pow_right two_pos hj
  have hl : l % 2 ^ j < 2 ^ j := Nat.mod_lt _ (Nat.two_pow_pos j)
  unfold newStride
  rw [asU64_two_pow hj, asU32_two_pow hj, raise_eq hk hrem, raise_eq hk hrem,
    Nat.mod_eq_of_lt (show l % 2 ^ j < 2 ^ 32 by omega)]
  have hphase : ((2 : ℤ) ^ j ≠ 1 ∧ l % 2 ^ j ≠ rem % 2 ^ j) ↔ l % 2 ^ j ≠ rem % 2 ^ j := by
    refine ⟨And.right, fun h => ⟨fun h1 => h ?_, h⟩⟩
    have h1 : (2 : ℕ) ^ j = 1 := by exact_mod_cast h1
    rw [h1, Nat.mod_one, Nat.mod_one]
  simp only [hphase, Option.bind_some, Option.map_some, mod_word_and_mask hn]
  split <;> rfl

/-! `intersect` from the moved boundaries on. -/

section Answers

variable {p : Bounds}

theorem intersect_of_empty (heA : A.isempty = false) (heB : B.isempty = false)
    (h : sameStride A B = some none) : A.intersect B = some (0, { A with isempty := true }) := by
  simp only [intersect, heA, heB, h, Bool.false_eq_true, if_false, Option.map_some, Option.bind_none]

theorem sameDomain_of_mask_eq (hm : A.mask = B.mask) (s : ℤ) : sameDomain A B s p = some p := by
  simp only [sameDomain, hm, Nat.and_self, ne_eq, not_true_eq_false, if_false]

theorem intersect_of_meet (heA : A.isempty = false) (heB : B.isempty = false)
    (hm : A.mask = B.mask) (h : sameStride A B = some (some p)) (hS : A.meet p = some S) :
    A.intersect B = some (0, { S with mask := A.mask, step := max A.step B.step }) := by
  simp only [intersect, heA, heB, h, Bool.false_eq_true, if_false, Option.map_some,
    Option.bind_some, sameDomain_of_mask_eq hm, hS]
  rw [← hm, Nat.and_self]

theorem intersect_of_split (heA : A.isempty = false) (heB : B.isempty = false)
    (hm : A.mask = B.mask) (h : sameStride A B = some (some p)) (hS : A.meet p = none) :
    A.intersect B = some (2, A) := by
  simp only [intersect, heA, heB, h, Bool.false_eq_true, if_false, Option.map_some,
    Option.bind_some, sameDomain_of_mask_eq hm, hS]

/-- The range marked empty is right exactly where there is no common value. -/
theorem intersectExact_of_empty
    (h : A.intersect B = some (0, { A with isempty := true })) :
    IntersectExact n A B ↔ ∀ v < 2 ^ n, ¬(A.containsVal v = true ∧ B.containsVal v = true) := by
  constructor
  · rintro ⟨ret, C, hi, hC⟩
    rw [h] at hi
    cases hi
    rcases hC with ⟨_, _, he⟩ | ⟨h2, _⟩
    · exact he.mp rfl
    · cases h2
  · intro hno
    refine ⟨0, _, h, .inl ⟨rfl, fun v hv => ?_, fun _ => hno, fun _ => rfl⟩⟩
    rw [containsVal_of_isempty rfl]
    exact ⟨nofun, fun h => absurd h (hno v hv)⟩

/-- The values of both ranges are those of one phase on two arcs with bounds of that phase. -/
structure Joined (n t ρ : ℕ) (A B : CircleRange) (p : Bounds) : Prop where
  lt : p.1.1 < 2 ^ n ∧ p.1.2 < 2 ^ n ∧ p.2.1 < 2 ^ n ∧ p.2.2 < 2 ^ n
  phase : p.1.1 % t = ρ ∧ p.1.2 % t = ρ ∧ p.2.1 % t = ρ ∧ p.2.2 % t = ρ
  common : ∀ v < 2 ^ n, (A.containsVal v = true ∧ B.containsVal v = true) ↔
    v % t = ρ ∧ Mem p.1.1 p.1.2 v ∧ Mem p.2.1 p.2.2 v

/-- What `meet` leaves of two joined arcs is exact. -/
theorem Joined.exact_of_meet (hJ : Joined n t ρ A B p) (heA : A.isempty = false)
    (heB : B.isempty = false) (hm : A.mask = B.mask) (hk : k ≤ 30) (ht : t = 2 ^ k)
    (hstep : max A.step B.step = 2 ^ k) (h : sameStride A B = some (some p))
    (hS : A.meet p = some S) : IntersectExact n A B := by
  obtain ⟨_, _, hleft⟩ := meet_left hS
  have hphase : S.isempty = true ∨ S.left % t = ρ := by
    rcases hleft with h | h | h
    · exact .inl h
    · exact .inr (h ▸ hJ.phase.1)
    · exact .inr (h ▸ hJ.phase.2.2.1)
  have hlt : S.isempty = true ∨ S.left < 2 ^ n := by
    rcases hleft with h | h | h
    · exact .inl h
    · exact .inr (h ▸ hJ.lt.1)
    · exact .inr (h ▸ hJ.lt.2.2.1)
  have harcs := meet_some heA hS
  refine ⟨0, _, intersect_of_meet heA heB hm h hS, .inl ⟨rfl, fun v hv => ?_, ?_⟩⟩
  · rw [containsVal_iff, hJ.common v hv, ← harcs v]
    · simp only [stepU, hstep, asU64_two_pow hk, ← ht]
      constructor
      · rintro ⟨he, hp, hmem⟩
        refine ⟨hp.trans ?_, he, hmem⟩
        simpa only [he, Bool.false_eq_true, false_or] using hphase
      · rintro ⟨hp, he, hmem⟩
        refine ⟨he, hp.trans ?_, hmem⟩
        simpa only [he, Bool.false_eq_true, false_or, eq_comm] using hphase
    · simp only [stepU, hstep, asU64_two_pow hk]
      intro h1
      exact_mod_cast h1
  · constructor
    · intro he v hv hc
      have := ((harcs v).mpr ((hJ.common v hv).mp hc).2).1
      rw [he] at this
      cases this
    · intro hno
      by_contra hne
      have hne : S.isempty = false := Bool.not_eq_true _ ▸ hne
      rw [hne] at hphase hlt
      simp only [Bool.false_eq_true, false_or] at hphase hlt
      exact hno _ hlt ((hJ.common _ hlt).mpr ⟨hphase, (harcs _).mp ⟨hne, mem_left⟩⟩)

/-- The phase of two arcs that cross twice divides the domain. -/
theorem Joined.dvd (hJ : Joined n t ρ A B p) (ht : t = 2 ^ k) (hne : p.1.1 ≠ p.1.2) : t ∣ 2 ^ n := by
  rw [ht]
  apply Nat.pow_dvd_pow
  by_contra hlt
  have hle : 2 ^ n ≤ 2 ^ k := Nat.pow_le_pow_right two_pos (by omega)
  obtain ⟨hp1, hp2, _⟩ := hJ.phase
  obtain ⟨hl1, hl2, _⟩ := hJ.lt
  rw [ht, Nat.mod_eq_of_lt (hl1.trans_le hle)] at hp1
  rw [ht, Nat.mod_eq_of_lt (hl2.trans_le hle)] at hp2
  omega

/-- Two values a power of two apart are a range. -/
theorem range_of_pair {a c : ℕ} (hj : j ≤ 30) (ha : a < 2 ^ n) (hac : a ≠ c)
    (h : (a + 2 ^ j) % 2 ^ n = c) : ∃ D : CircleRange, D.WellFormed n ∧
      ∀ v < 2 ^ n, D.containsVal v = true ↔ v = a ∨ v = c := by
  have hlt : j < n := by
    by_contra hle
    have hd : 2 ^ n ∣ 2 ^ j := Nat.pow_dvd_pow 2 (by omega)
    rw [Nat.add_mod, Nat.mod_eq_zero_of_dvd hd, Nat.add_zero, Nat.mod_mod, Nat.mod_eq_of_lt ha] at h
    exact hac h
  have hd : 2 ^ j ∣ 2 ^ n := Nat.pow_dvd_pow 2 hlt.le
  have hjn : 2 ^ j < 2 ^ n := Nat.pow_lt_pow_right (by norm_num) hlt
  have hpos := Nat.two_pow_pos n
  let D : CircleRange := { left := a, right := (a + 2 ^ j + 2 ^ j) % 2 ^ n, mask := 2 ^ n - 1,
                           isempty := false, step := 2 ^ j }
  have hD : D.WellFormed n := by
    refine ⟨rfl, ?_, ?_, ⟨j, hj, rfl⟩, ?_⟩
    · change a ≤ 2 ^ n - 1
      omega
    · have := Nat.mod_lt (a + 2 ^ j + 2 ^ j) hpos
      change (a + 2 ^ j + 2 ^ j) % 2 ^ n ≤ 2 ^ n - 1
      omega
    · change (a + 2 ^ j + 2 ^ j) % 2 ^ n % asU64 (2 ^ j) = a % asU64 (2 ^ j)
      rw [asU64_two_pow hj, add_mod_phase hd, Nat.add_mod_right]
  refine ⟨D, hD, fun v hv => ?_⟩
  rw [hD.containsVal_iff, show D.stepU = 2 ^ j from asU64_two_pow hj, ← h,
    ← mem_two_strides_iff hd (Nat.two_pow_pos j) hjn ha hv]
  exact and_iff_right rfl

/-- Two arcs that cross twice are one range only if they make a lone pair. -/
theorem Joined.range_iff_lonePair (hJ : Joined n t ρ A B p) (ht : t = 2 ^ k)
    (hS : A.meet p = none) : (∃ D : CircleRange, D.WellFormed n ∧
      ∀ v < 2 ^ n, D.containsVal v = true ↔ A.containsVal v = true ∧ B.containsVal v = true) ↔
    LonePair n t p := by
  obtain ⟨h1, h2, h3, h4, hg⟩ := meet_eq_none.mp hS
  have hshape := encodeRangeOverlaps_shape h1 h2
  rw [hg] at hshape
  have hcyc := hshape.2.2 h3 h4
  obtain ⟨hl, hr, hl2, hr2⟩ := hJ.lt
  obtain ⟨pl, pr, pl2, pr2⟩ := hJ.phase
  have hdvd := hJ.dvd ht h1
  have ht0 : 0 < t := ht ▸ Nat.two_pow_pos k
  have hcommon : ∀ v < 2 ^ n, (A.containsVal v = true ∧ B.containsVal v = true) ↔
      v % t = p.1.1 % t ∧ (Mem p.2.1 p.1.2 v ∨ Mem p.1.1 p.2.2 v) := by
    intro v hv
    rw [hJ.common v hv, pl]
    refine and_congr_right fun _ => ?_
    unfold Mem
    omega
  constructor
  · rintro ⟨D, hD, hset⟩
    obtain ⟨j, hj, _, hU⟩ := hD.stepU_eq
    have hDl : D.containsVal p.1.1 = true :=
      (hset _ hl).mpr ((hcommon _ hl).mpr ⟨rfl, .inr mem_left⟩)
    have hDl2 : D.containsVal p.2.1 = true :=
      (hset _ hl2).mpr ((hcommon _ hl2).mpr ⟨pl2.trans pl.symm, .inl mem_left⟩)
    obtain ⟨he, hph, _⟩ := hD.containsVal_iff.mp hDl
    obtain ⟨_, hph2, _⟩ := hD.containsVal_iff.mp hDl2
    have hsd : D.stepU ∣ 2 ^ n := by
      rcases hD.stepU_dvd_or with h | h
      · exact h
      · have hle := Nat.le_of_dvd hD.stepU_pos h
        rw [← hph, Nat.mod_eq_of_lt (hl.trans_le hle), Nat.mod_eq_of_lt (hl2.trans_le hle)] at hph2
        omega
    have hset' : ∀ v < 2 ^ n, v % D.stepU = D.left % D.stepU ∧ Mem D.left D.right v ↔
        v % t = p.1.1 % t ∧ (Mem p.2.1 p.1.2 v ∨ Mem p.1.1 p.2.2 v) := by
      intro v hv
      rw [← hcommon v hv, ← hset v hv, hD.containsVal_iff]
      simp only [he, true_and]
    obtain ⟨e1, e2, e3⟩ := two_arcs_stride hsd hdvd (lt_trichotomy _ _) hD.stepU_pos ht0 hl hr hl2
      hr2 hD.left_lt hD.right_lt (pr.trans pl.symm) (pl2.trans pl.symm) (pr2.trans pl.symm) hD.phase
      hcyc hset'
    exact ⟨h1, h2, h3, h4, hg, e1, e2, j, hj, by rwa [← hU]⟩
  · rintro ⟨_, _, _, _, _, e1, e2, j, hj, hpair⟩
    have htM : t < 2 ^ n := by
      refine lt_of_le_of_ne (Nat.le_of_dvd (by omega) hdvd) ?_
      rintro rfl
      rw [Nat.mod_eq_of_lt hl] at pl
      rw [Nat.mod_eq_of_lt hr] at pr
      omega
    have hpoints : ∀ v < 2 ^ n, (A.containsVal v = true ∧ B.containsVal v = true) ↔
        v = p.2.1 ∨ v = p.1.1 := by
      intro v hv
      rw [hcommon v hv, and_or_left, e1, e2, mem_stride_iff hdvd ht0 htM hl hv,
        pl.trans pl2.symm, mem_stride_iff hdvd ht0 htM hl2 hv]
    rcases hpair with h | h
    · obtain ⟨D, hD, hset⟩ := range_of_pair hj hl2 (by omega) h
      exact ⟨D, hD, fun v hv => (hset v hv).trans (hpoints v hv).symm⟩
    · obtain ⟨D, hD, hset⟩ := range_of_pair hj hl (by omega) h
      exact ⟨D, hD, fun v hv => (hset v hv).trans (or_comm.trans (hpoints v hv).symm)⟩

theorem Joined.exact_iff (hJ : Joined n t ρ A B p) (heA : A.isempty = false)
    (heB : B.isempty = false) (hm : A.mask = B.mask) (hk : k ≤ 30) (ht : t = 2 ^ k)
    (hstep : max A.step B.step = 2 ^ k) (h : sameStride A B = some (some p)) :
    IntersectExact n A B ↔ ¬LonePair n t p := by
  cases hS : A.meet p with
  | some S =>
    refine iff_of_true (hJ.exact_of_meet heA heB hm hk ht hstep h hS) ?_
    rintro ⟨h1, h2, h3, h4, hg, _⟩
    rw [meet_eq_none.mpr ⟨h1, h2, h3, h4, hg⟩] at hS
    cases hS
  | none =>
    have hi := intersect_of_split heA heB hm h hS
    rw [← hJ.range_iff_lonePair ht hS]
    constructor
    · rintro ⟨ret, C, hC, hans⟩
      rw [hi] at hC
      cases hC
      rcases hans with ⟨h0, _⟩ | ⟨_, _, hno⟩
      · cases h0
      · exact hno
    · exact fun hno => ⟨2, A, hi, .inr ⟨rfl, rfl, hno⟩⟩

/-- Ranges of one step and two phases: right where their arcs are apart. -/
theorem intersectExact_of_phases (hA : A.WellFormed n) (hB : B.WellFormed n)
    (heA : A.isempty = false) (heB : B.isempty = false) (hs : A.step = B.step)
    (hp : A.left % A.stepU ≠ B.left % A.stepU) : IntersectExact n A B ↔
      ∀ v < 2 ^ n, ¬(Mem A.left A.right v ∧ Mem B.left B.right v) := by
  have hm : A.mask = B.mask := hA.mask.trans hB.mask.symm
  have hU : B.stepU = A.stepU := by rw [stepU, stepU, hs]
  have hss : sameStride A B = some (some ((A.left, A.right), B.left, B.right)) := by
    simp only [sameStride, hs, lt_irrefl, if_false]
  have hno : ∀ v, ¬(A.containsVal v = true ∧ B.containsVal v = true) := by
    rintro v ⟨h1, h2⟩
    have h1 := (hA.containsVal_iff.mp h1).2.1
    have h2 := (hB.containsVal_iff.mp h2).2.1
    rw [hU] at h2
    exact hp (h1.symm.trans h2)
  cases hS : A.meet ((A.left, A.right), B.left, B.right) with
  | none =>
    have hne := meet_eq_none.mp hS
    have hshape := encodeRangeOverlaps_shape hne.1 hne.2.1
    rw [hne.2.2.2.2] at hshape
    have hcyc := hshape.2.2 hne.2.2.1 hne.2.2.2.1
    refine iff_of_false ?_ fun hap => hap B.left hB.left_lt ⟨?_, mem_left⟩
    · rintro ⟨ret, C, hC, hans⟩
      rw [intersect_of_split heA heB hm hss hS] at hC
      cases hC
      rcases hans with ⟨h0, _⟩ | ⟨_, _, hexp⟩
      · cases h0
      · refine hexp ⟨{ B with isempty := true }, ⟨hB.mask, hB.left, hB.right, hB.step, hB.phase⟩,
          fun v _ => ?_⟩
        rw [containsVal_of_isempty rfl]
        exact ⟨fun hf => absurd hf Bool.false_ne_true, fun h => absurd h (hno v)⟩
    · dsimp only at hcyc
      unfold Mem
      omega
  | some S =>
    have hi := intersect_of_meet heA heB hm hss hS
    have harcs := meet_some heA hS
    constructor
    · rintro ⟨ret, C, hC, hans⟩ v _ hv
      rw [hi] at hC
      cases hC
      rcases hans with ⟨_, _, he⟩ | ⟨h2, _⟩
      · have hS' := ((harcs v).mpr hv).1
        have : S.isempty = true := he.mpr fun v _ => hno v
        rw [hS'] at this
        cases this
      · cases h2
    · intro hap
      have hleft : S.left < 2 ^ n ∨ S.isempty = true := by
        rcases (meet_left hS).2.2 with h | h | h
        · exact .inr h
        · exact .inl (h ▸ hA.left_lt)
        · exact .inl (h ▸ hB.left_lt)
      have he : S.isempty = true := by
        rcases hleft with h | h
        · by_contra hne
          exact hap _ h ((harcs _).mp ⟨Bool.not_eq_true _ ▸ hne, mem_left⟩)
        · exact h
      refine ⟨0, _, hi, .inl ⟨rfl, fun v hv => ?_, fun _ v _ => hno v, fun _ => he⟩⟩
      rw [containsVal_of_isempty (R := { S with mask := A.mask, step := max A.step B.step }) he]
      exact ⟨fun hf => absurd hf Bool.false_ne_true, fun h => absurd h (hno v)⟩

/-- A full arc leaves the other one. -/
theorem meet_of_full (h : p.1.1 = p.1.2 ∨ p.2.1 = p.2.2) :
    ∃ S, R.meet p = some S ∧ S.isempty = R.isempty := by
  obtain ⟨⟨l, r⟩, l2, r2⟩ := p
  dsimp only at h
  simp only [meet]
  by_cases h1 : l = r
  · exact ⟨_, if_pos h1, rfl⟩
  · exact ⟨_, (if_neg h1).trans (if_pos (h.resolve_left h1)), rfl⟩

end Answers

/-! Ranges of different strides. -/

section Strides

variable {S T : CircleRange} {bounds : ℕ → ℕ → Bounds}

/-- Moving the range `S` to the larger stride of `T`. -/
theorem strideExact_iff (hn : n ≤ 64) (hS : S.WellFormed n) (hT : T.WellFormed n)
    (hm : A.mask = B.mask) (heA : A.isempty = false) (heB : B.isempty = false)
    (heS : S.isempty = false) (heT : T.isempty = false) (hst : S.step < T.step)
    (hmax : max A.step B.step = T.step)
    (hside : (∀ l r, bounds l r = ((l, r), T.left, T.right)) ∨
      ∀ l r, bounds l r = ((T.left, T.right), l, r))
    (hcommon : ∀ v, (A.containsVal v = true ∧ B.containsVal v = true) ↔
      (S.containsVal v = true ∧ T.containsVal v = true))
    (hsame : sameStride A B = (newStride S.mask T.step S.step (T.left % T.stepU % 2 ^ 32) S.left
      S.right).map fun s => if s.1 then none else some (bounds s.2.1 s.2.2)) :
    IntersectExact n A B ↔ StrideExact n S T bounds := by
  obtain ⟨j, hj, hSs, hSU⟩ := hS.stepU_eq
  obtain ⟨k, hk, hTs, hTU⟩ := hT.stepU_eq
  have hjk : 2 ^ j ∣ 2 ^ k := by
    apply Nat.pow_dvd_pow
    rw [hSs, hTs] at hst
    exact ((pow_lt_pow_iff_right₀ (by norm_num)).mp hst).le
  have hk32 : (2 : ℕ) ^ k ≤ 2 ^ 30 := Nat.pow_le_pow_right two_pos hk
  have hrem : T.left % 2 ^ k < 2 ^ k := Nat.mod_lt _ (Nat.two_pow_pos k)
  have hrn : T.left % 2 ^ k < 2 ^ n := (Nat.mod_le _ _).trans_lt hT.left_lt
  have hMk : 2 ^ k ∣ 2 ^ n ∨ 2 ^ n ∣ 2 ^ k := hTU ▸ hT.stepU_dvd_or
  have hTphase : ∀ v, T.containsVal v = true ↔ v % 2 ^ k = T.left % 2 ^ k ∧
      Mem T.left T.right v := by
    intro v
    rw [hT.containsVal_iff, hTU]
    simp only [heT, true_and]
  have hSphase : ∀ v, S.containsVal v = true ↔ v % 2 ^ j = S.left % 2 ^ j ∧
      Mem S.left S.right v := by
    intro v
    rw [hS.containsVal_iff, hSU]
    simp only [heS, true_and]
  rw [hTU, hS.mask, hTs, hSs, Nat.mod_eq_of_lt (show T.left % 2 ^ k < 2 ^ 32 by omega),
    newStride_eq hn hk hj hrem, Option.map_some] at hsame
  simp only [StrideExact, hTU, hSU]
  by_cases hph : S.left % 2 ^ j = T.left % 2 ^ k % 2 ^ j
  case neg =>
    simp only [ne_eq, hph, not_false_eq_true, if_true] at hsame
    refine iff_of_true ?_ fun h => absurd h hph
    refine (intersectExact_of_empty (intersect_of_empty heA heB hsame)).mpr fun v _ hv => hph ?_
    obtain ⟨h1, h2⟩ := (hcommon v).mp hv
    rw [← ((hSphase v).mp h1).1, ← ((hTphase v).mp h2).1, Nat.mod_mod_of_dvd _ hjk]
  simp only [ne_eq, hph, not_true_eq_false, if_false] at hsame
  simp only [hph, forall_const]
  have hvals : ∀ v, (S.containsVal v = true ∧ T.containsVal v = true) ↔
      v % 2 ^ k = T.left % 2 ^ k ∧ Mem S.left S.right v ∧ Mem T.left T.right v := by
    intro v
    rw [hSphase, hTphase, hph]
    constructor
    · rintro ⟨⟨_, h1⟩, h2, h3⟩
      exact ⟨h2, h1, h3⟩
    · rintro ⟨h2, h1, h3⟩
      exact ⟨⟨by rw [← h2, Nat.mod_mod_of_dvd _ hjk], h1⟩, h2, h3⟩
  have hno : (∀ v < 2 ^ n, v % 2 ^ k = T.left % 2 ^ k → ¬Mem S.left S.right v) →
      ∀ v < 2 ^ n, ¬(A.containsVal v = true ∧ B.containsVal v = true) := fun h v hv hc =>
    h v hv ((hvals v).mp ((hcommon v).mp hc)).1 ((hvals v).mp ((hcommon v).mp hc)).2.1
  have hmoved : ∀ b, up (2 ^ k) (T.left % 2 ^ k) b % 2 ^ n < 2 ^ n ∧
      up (2 ^ k) (T.left % 2 ^ k) b % 2 ^ n % 2 ^ k = T.left % 2 ^ k := by
    intro b
    refine ⟨Nat.mod_lt _ (Nat.two_pow_pos n), ?_⟩
    rcases hMk with hd | hd
    · rw [Nat.mod_mod_of_dvd _ hd, up_mod hrem]
    · rw [← Nat.mod_mod_of_dvd _ hd, up_mod hrem, Nat.mod_eq_of_lt hrn]
      exact Nat.mod_eq_of_lt hrem
  have hLP : ∀ l, ¬LonePair n (2 ^ k) (bounds l l) := by
    intro l
    rcases hside with hb | hb
    · rw [hb]
      exact fun h => h.1 rfl
    · rw [hb]
      exact fun h => h.2.1 rfl
  have hbool : ∀ x y : Prop, [Decidable x] → [Decidable y] →
      ((decide x != decide y) = true ↔ ¬(x ↔ y)) := by
    intro x y _ _
    by_cases hx : x <;> by_cases hy : y <;> simp [hx, hy]
  by_cases hw : 2 ^ n ≤ up (2 ^ k) (T.left % 2 ^ k) S.left ↔
      2 ^ n ≤ up (2 ^ k) (T.left % 2 ^ k) S.right
  · have hmv := fun v hv hp => mem_moved (x := v) hMk hrem hrn hS.left_lt hS.right_lt hv hp hw
    rw [if_pos hw]
    obtain ⟨hLlt, hLp⟩ := hmoved S.left
    obtain ⟨hQlt, hQp⟩ := hmoved S.right
    generalize up (2 ^ k) (T.left % 2 ^ k) S.left % 2 ^ n = L at *
    generalize up (2 ^ k) (T.left % 2 ^ k) S.right % 2 ^ n = Q at *
    by_cases ho : S.left < S.right ↔ L < Q
    · rw [if_neg ((hbool _ _).not.mpr (not_not.mpr ho))] at hsame
      have hTr : T.right % 2 ^ k = T.left % 2 ^ k := hTU ▸ hT.phase
      refine Joined.exact_iff (ρ := T.left % 2 ^ k) ?_ heA heB hm hk rfl (hmax.trans hTs) hsame
      rcases hside with hb | hb
      · rw [hb]
        refine ⟨⟨hLlt, hQlt, hT.left_lt, hT.right_lt⟩, ⟨hLp, hQp, rfl, hTr⟩, fun v hv => ?_⟩
        rw [hcommon, hvals]
        exact and_congr_right fun hp => and_congr_left fun _ => (((hmv v hv hp).1 ho).symm)
      · rw [hb]
        refine ⟨⟨hT.left_lt, hT.right_lt, hLlt, hQlt⟩, ⟨rfl, hTr, hLp, hQp⟩, fun v hv => ?_⟩
        rw [hcommon, hvals, and_comm (a := Mem S.left S.right v)]
        exact and_congr_right fun hp => and_congr_right fun _ => (((hmv v hv hp).1 ho).symm)
    · rw [if_pos ((hbool _ _).mpr ho)] at hsame
      have hLQ : L = Q := ((hmv T.left hT.left_lt rfl).2 ho).2
      refine iff_of_true ?_ (hLQ ▸ hLP L)
      exact (intersectExact_of_empty (intersect_of_empty heA heB hsame)).mpr
        (hno fun v hv hp => ((hmv v hv hp).2 ho).1)
  · obtain ⟨hturn, hmeet⟩ := moved_past hMk hrem hrn hS.left_lt hS.right_lt hw
    rw [if_neg hw]
    by_cases ho : S.left < S.right ∨ T.left % 2 ^ k < S.right
    · rw [if_pos ((hbool _ _).mpr (hturn ho))] at hsame
      rw [intersectExact_of_empty (intersect_of_empty heA heB hsame), and_iff_left ho]
      exact forall₂_congr fun v _ => not_congr (hcommon v)
    · obtain ⟨hL, hQ, hnone⟩ := hmeet ho
      rw [hL, hQ, if_neg ((hbool _ _).not.mpr (not_not.mpr (by omega)))] at hsame
      refine iff_of_false ?_ fun h => ho h.2
      rintro ⟨ret, C, hC, hans⟩
      obtain ⟨U, hU, heU⟩ : ∃ U, A.meet (bounds (T.left % 2 ^ k) (T.left % 2 ^ k)) = some U ∧
          U.isempty = A.isempty := by
        apply meet_of_full
        rcases hside with hb | hb
        · rw [hb]
          exact .inl rfl
        · rw [hb]
          exact .inr rfl
      rw [intersect_of_meet heA heB hm hsame hU] at hC
      cases hC
      rcases hans with ⟨_, _, he⟩ | ⟨h2, _⟩
      · have : U.isempty = true := he.mpr (hno hnone)
        rw [heU, heA] at this
        cases this
      · cases h2

end Strides

/-- Two nonempty ranges. -/
theorem intersectExact_nonempty (hn : n ≤ 64) (hA : A.WellFormed n) (hB : B.WellFormed n)
    (heA : A.isempty = false) (heB : B.isempty = false) :
    IntersectExact n A B ↔ IntersectExactWhen n A B := by
  have hm : A.mask = B.mask := hA.mask.trans hB.mask.symm
  simp only [IntersectExactWhen, heA, heB, Bool.false_eq_true, false_or]
  by_cases hs : A.step = B.step
  · rw [if_pos hs]
    by_cases hp : A.left % A.stepU = B.left % A.stepU
    · rw [if_pos hp]
      obtain ⟨k, hk, hstep, hU⟩ := hA.stepU_eq
      have hUB : B.stepU = A.stepU := by rw [stepU, stepU, hs]
      have hJ : Joined n A.stepU (A.left % A.stepU) A B ((A.left, A.right), B.left, B.right) := by
        refine ⟨⟨hA.left_lt, hA.right_lt, hB.left_lt, hB.right_lt⟩,
          ⟨rfl, hA.phase, hp.symm, ?_⟩, fun v _ => ?_⟩
        · rw [hp, ← hUB]
          exact hB.phase
        · rw [hA.containsVal_iff, hB.containsVal_iff, hUB, ← hp]
          simp only [heA, heB, true_and]
          constructor
          · rintro ⟨⟨h1, h2⟩, _, h3⟩
            exact ⟨h1, h2, h3⟩
          · rintro ⟨h1, h2, h3⟩
            exact ⟨⟨h1, h2⟩, h1, h3⟩
      refine hJ.exact_iff heA heB hm hk hU ?_ ?_
      · rw [← hs, max_self, hstep]
      · simp only [sameStride, hs, lt_irrefl, if_false]
    · rw [if_neg hp]
      exact intersectExact_of_phases hA hB heA heB hs hp
  · rw [if_neg hs]
    by_cases hlt : A.step < B.step
    · rw [if_pos hlt]
      refine strideExact_iff hn hA hB hm heA heB heA heB hlt (max_eq_right hlt.le)
        (.inl fun _ _ => rfl) (fun _ => Iff.rfl) ?_
      simp only [sameStride, if_pos hlt]
    · have hgt : B.step < A.step := lt_of_le_of_ne (not_lt.mp hlt) (Ne.symm hs)
      rw [if_neg hlt]
      refine strideExact_iff hn hB hA hm heA heB heB heA hgt (max_eq_left hgt.le)
        (.inr fun _ _ => rfl) (fun _ => and_comm) ?_
      simp only [sameStride, if_neg hlt, if_pos hgt]

/-- `intersect` over one domain is exact on these inputs and no others. -/
theorem intersect_exact_iff (hn : n ≤ 64) (hA : A.WellFormed n) (hB : B.WellFormed n) :
    IntersectExact n A B ↔ IntersectExactWhen n A B := by
  cases heA : A.isempty with
  | true =>
    refine iff_of_true ⟨0, A, if_pos heA, .inl ⟨rfl, fun v _ => ?_, fun _ v _ hc => ?_, fun _ => heA⟩⟩
      (.inl heA)
    · rw [containsVal_of_isempty heA]
      exact ⟨nofun, fun h => h.1⟩
    · rw [containsVal_of_isempty heA] at hc
      cases hc.1
  | false =>
    cases heB : B.isempty with
    | true =>
      have hi : A.intersect B = some (0, { A with isempty := true }) := by
        simp only [intersect, heA, heB, Bool.false_eq_true, if_false, if_true]
      refine iff_of_true ((intersectExact_of_empty hi).mpr fun v _ hc => ?_) (.inr (.inl heB))
      rw [containsVal_of_isempty heB] at hc
      cases hc.2
    | false => exact intersectExact_nonempty hn hA hB heA heB

/-- Even values below a boundary that moves past the modulus, against all multiples of 4. -/
theorem intersect_exact_iff_carry :
    IntersectExact 8 { left := 250, right := 6, mask := 255, isempty := false, step := 2 }
        { left := 0, right := 0, mask := 255, isempty := false, step := 4 } ↔
      IntersectExactWhen 8 { left := 250, right := 6, mask := 255, isempty := false, step := 2 }
        { left := 0, right := 0, mask := 255, isempty := false, step := 4 } :=
  intersect_exact_iff (by norm_num)
    ⟨rfl, by decide, by decide, ⟨1, by norm_num, rfl⟩, by decide⟩
    ⟨rfl, by decide, by decide, ⟨2, by norm_num, rfl⟩, by decide⟩

/-- The range from 254 round to 6 over a byte, restricted to multiples of 4, loses 0 and 4. -/
theorem intersect_loses_values : ¬∀ (n : ℕ) (A B : CircleRange), n ≤ 64 → A.WellFormed n →
    B.WellFormed n → IntersectExact n A B := by
  intro h
  obtain ⟨ret, C, hC, hans⟩ := h 8
    { left := 254, right := 6, mask := 255, isempty := false, step := 1 }
    { left := 0, right := 0, mask := 255, isempty := false, step := 4 } (by norm_num)
    ⟨rfl, by decide, by decide, ⟨0, by norm_num, rfl⟩, by decide⟩
    ⟨rfl, by decide, by decide, ⟨2, by norm_num, rfl⟩, by decide⟩
  have hi : (intersect { left := 254, right := 6, mask := 255, isempty := false, step := 1 }
      { left := 0, right := 0, mask := 255, isempty := false, step := 4 }) =
      some (0, { left := 254, right := 6, mask := 255, isempty := true, step := 1 }) := by decide
  rw [hi] at hC
  cases hC
  rcases hans with ⟨_, hv, _⟩ | ⟨h2, _⟩
  · exact absurd ((hv 0 (by norm_num)).mpr (by decide)) (by decide)
  · cases h2

end Mosura.CircleRange
