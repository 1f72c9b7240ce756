import Mathlib

/-! Half-open arcs on the circle of the natural numbers below a modulus. -/

namespace Arc

/-- `x` is met going up from `l` round the circle, before `r`; the arc from `l` to `l` is the whole
circle. -/
def Mem (l r x : ℕ) : Prop := l = r ∨ (l ≤ x ∧ x < r) ∨ (r < l ∧ (x < r ∨ l ≤ x))

instance (l r x : ℕ) : Decidable (Mem l r x) :=
  inferInstanceAs (Decidable (l = r ∨ (l ≤ x ∧ x < r) ∨ (r < l ∧ (x < r ∨ l ≤ x))))

variable {M l r l' r' x c s : ℕ}

@[simp] theorem mem_full : Mem l l x := .inl rfl

theorem mem_left : Mem l r l := by
  unfold Mem
  omega

/-- Swapping the two ends gives the complement. -/
theorem mem_swap (h : l ≠ r) : Mem r l x ↔ ¬Mem l r x := by
  unfold Mem
  omega

theorem mem_zero (hr : 0 < r) : Mem 0 r x ↔ x < r := by
  unfold Mem
  omega

theorem mem_to_zero (hl : 0 < l) : Mem l 0 x ↔ l ≤ x := by
  unfold Mem
  omega

/-- One addition on the circle wraps at most once. -/
theorem add_mod_cases (hl : l < M) (hc : c < M) :
    l + c < M ∧ (l + c) % M = l + c ∨ M ≤ l + c ∧ (l + c) % M = l + c - M := by
  rcases Nat.lt_or_ge (l + c) M with h | h
  · exact .inl ⟨h, Nat.mod_eq_of_lt h⟩
  · refine .inr ⟨h, ?_⟩
    rw [Nat.mod_eq_sub_mod h, Nat.mod_eq_of_lt (by omega)]

/-- The arc that ends right after its start holds its start alone. -/
theorem mem_single (hM : 1 < M) (hl : l < M) (hx : x < M) : Mem l ((l + 1) % M) x ↔ x = l := by
  rcases add_mod_cases hl hM with ⟨_, h⟩ | ⟨_, h⟩
  all_goals
    rw [h]
    unfold Mem
    omega

/-- Arcs between multiples hold the points whose quotient is on the arc. -/
theorem mem_mul {a b P : ℕ} (hP : 0 < P) : Mem (a * P) (b * P) x ↔ Mem a b (x / P) := by
  unfold Mem
  rw [Nat.mul_left_inj hP.ne', Nat.mul_lt_mul_right hP, Nat.le_div_iff_mul_le hP,
    Nat.div_lt_iff_lt_mul hP]

/-- Arcs turn with the circle. -/
theorem mem_add (hl : l < M) (hr : r < M) (hx : x < M) :
    Mem ((l + c) % M) ((r + c) % M) ((x + c) % M) ↔ Mem l r x := by
  have hc : c % M < M := Nat.mod_lt _ (by omega)
  rw [← Nat.add_mod_mod l, ← Nat.add_mod_mod r, ← Nat.add_mod_mod x]
  unfold Mem
  rcases add_mod_cases hl hc with ⟨_, h1⟩ | ⟨_, h1⟩ <;>
    rcases add_mod_cases hr hc with ⟨_, h2⟩ | ⟨_, h2⟩ <;>
    rcases add_mod_cases hx hc with ⟨_, h3⟩ | ⟨_, h3⟩ <;>
    rw [h1, h2, h3] <;> omega

/-! Points a multiple of the stride `s` apart. -/

theorem add_le_of_lt (h : l % s = x % s) (hlt : l < x) : l + s ≤ x := by
  obtain ⟨k, hk⟩ := (Nat.modEq_iff_dvd' hlt.le).mp h
  have hpos : 0 < k := by
    rcases Nat.eq_zero_or_pos k with rfl | h
    · omega
    · exact h
  have := Nat.le_mul_of_pos_right s hpos
  omega

/-- Going up from `l` to `x` takes at least one stride, round the circle too. -/
theorem add_le_add_modulus (hs : s ∣ M) (h : l % s = x % s) (hl : l < M) : l + s ≤ x + M := by
  apply add_le_of_lt
  · rw [h, Nat.add_mod, Nat.mod_eq_zero_of_dvd hs, Nat.add_zero, Nat.mod_mod]
  · omega

theorem add_eq_of_mod_eq {a b : ℕ} (ha : a < 2 * M) (hb : b < 2 * M) (h : a % M = b % M) :
    a = b ∨ a = b + M ∨ b = a + M := by
  have hcase : ∀ n < 2 * M, n % M = n ∨ n % M + M = n := by
    intro n hn
    rcases Nat.lt_or_ge n M with h | h
    · exact .inl (Nat.mod_eq_of_lt h)
    · rw [Nat.mod_eq_sub_mod h, Nat.mod_eq_of_lt (by omega)]
      exact .inr (by omega)
  have := hcase a ha
  have := hcase b hb
  omega

/-- Mirrored points have mirrored phases. -/
theorem phase_mirror {y b : ℕ} (h : (x + y) % s = (l + b) % s) :
    x % s = l % s ↔ y % s = b % s := by
  constructor
  · intro hx
    exact (Nat.ModEq.add_left_cancel (Nat.ModEq.symm hx) (Nat.ModEq.symm h)).symm
  · intro hy
    exact Nat.ModEq.add_right_cancel hy h

/-- Arcs of stride `s` mirrored: their last element becomes the first one. -/
theorem mem_reflect {y : ℕ} (hs : s ∣ M) (hl : l < M) (hr : r < M) (hx : x < M) (hl' : l' < M)
    (hr' : r' < M) (hy : y < M) (hc : c < M) (hlr : r % s = l % s) (hlx : x % s = l % s)
    (h1 : (l' + r) % M = (c + s) % M) (h2 : (r' + l) % M = (c + s) % M)
    (h3 : (y + x) % M = c % M) : Mem l' r' y ↔ Mem l r x := by
  have hsM : s ≤ M := Nat.le_of_dvd (by omega) hs
  rcases Nat.eq_zero_or_pos s with rfl | hpos
  · rw [Nat.zero_dvd] at hs
    omega
  have e1 := add_eq_of_mod_eq (by omega) (by omega) h1
  have e2 := add_eq_of_mod_eq (by omega) (by omega) h2
  have e3 := add_eq_of_mod_eq (by omega) (by omega) h3
  have g1 := add_le_of_lt (l := l) (x := r) hlr.symm
  have g2 := add_le_of_lt (l := r) (x := l) hlr
  have g3 := add_le_of_lt (l := l) (x := x) hlx.symm
  have g4 := add_le_of_lt (l := x) (x := l) hlx
  have g5 := add_le_of_lt (l := r) (x := x) (hlr.trans hlx.symm)
  have g6 := add_le_of_lt (l := x) (x := r) (hlx.trans hlr.symm)
  have k1 := add_le_add_modulus (x := r) hs hlr.symm hl
  have k2 := add_le_add_modulus (x := l) hs hlr hr
  have k3 := add_le_add_modulus (x := x) hs hlx.symm hl
  have k4 := add_le_add_modulus (x := l) hs hlx hx
  have k5 := add_le_add_modulus (x := x) hs (hlr.trans hlx.symm) hr
  have k6 := add_le_add_modulus (x := r) hs (hlx.trans hlr.symm) hx
  unfold Mem
  rcases e1 with e1 | e1 | e1 <;> rcases e2 with e2 | e2 | e2 <;>
    rcases e3 with e3 | e3 | e3 <;> omega

/-! The points of one phase on an arc, `s` apart. -/

theorem add_mod_phase (hs : s ∣ M) : (x + s) % M % s = x % s := by
  rw [Nat.mod_mod_of_dvd _ hs, Nat.add_mod_right]

/-- One stride up from a point of the arc is the next one, or the end. -/
theorem mem_next (hs : s ∣ M) (hl : l < M) (hr : r < M) (hx : x < M) (hlr : r % s = l % s)
    (hlx : x % s = l % s) (h : Mem l r x) : (x + s) % M = r ∨ Mem l r ((x + s) % M) := by
  have hsM : s ≤ M := Nat.le_of_dvd (by omega) hs
  have g1 := add_le_of_lt (hlx.trans hlr.symm)
  have g2 := add_le_of_lt hlx
  have k1 := add_le_add_modulus hs (hlx.trans hlr.symm) hx
  have k2 := add_le_add_modulus hs hlx hx
  rcases Nat.lt_or_ge (x + s) M with hlt | hge
  · rw [Nat.mod_eq_of_lt hlt]
    unfold Mem at *
    omega
  · rw [Nat.mod_eq_sub_mod hge, Nat.mod_eq_of_lt (by omega)]
    unfold Mem at *
    omega

/-- The last point of a phase on an arc is one stride before its end. -/
theorem mem_last (hs : s ∣ M) (hpos : 0 < s) (hl : l < M) (hr : r < M)
    (hlr : r % s = l % s) : Mem l r ((r + (M - s)) % M) ∧ (r + (M - s)) % M % s = l % s ∧
      ((r + (M - s)) % M + s) % M = r := by
  have hsM : s ≤ M := Nat.le_of_dvd (by omega) hs
  have hdvd : s ∣ M - s := Nat.dvd_sub hs dvd_rfl
  have hend : ((r + (M - s)) % M + s) % M = r := by
    rw [Nat.mod_add_mod, show r + (M - s) + s = r + M by omega, Nat.add_mod_right,
      Nat.mod_eq_of_lt hr]
  have hph : (r + (M - s)) % M % s = l % s := by
    rw [Nat.mod_mod_of_dvd _ hs, Nat.add_mod, Nat.mod_eq_zero_of_dvd hdvd, Nat.add_zero,
      Nat.mod_mod, hlr]
  refine ⟨?_, hph, hend⟩
  have g1 := add_le_of_lt hlr
  have g2 := add_le_of_lt hlr.symm
  have k1 := add_le_add_modulus hs hlr.symm hl
  have k2 := add_le_add_modulus hs hlr hr
  unfold Mem
  rcases Nat.lt_or_ge (r + (M - s)) M with h | h
  · rw [Nat.mod_eq_of_lt h]
    omega
  · rw [Nat.mod_eq_sub_mod h, Nat.mod_eq_of_lt (by omega)]
    omega

/-- The arc one stride long holds its start alone. -/
theorem mem_stride_iff (hs : s ∣ M) (hpos : 0 < s) (hsM : s < M) (hl : l < M) (hx : x < M) :
    x % s = l % s ∧ Mem l ((l + s) % M) x ↔ x = l := by
  constructor
  · rintro ⟨hp, hm⟩
    by_contra hne
    have g1 := add_le_of_lt hp
    have g2 := add_le_of_lt hp.symm
    have k1 := add_le_add_modulus hs hp hx
    have k2 := add_le_add_modulus hs hp.symm hl
    unfold Mem at hm
    rcases add_mod_cases hl hsM with ⟨_, h⟩ | ⟨_, h⟩ <;> rw [h] at hm <;> omega
  · rintro rfl
    exact ⟨rfl, mem_left⟩

/-- The arc two strides long holds two points. -/
theorem mem_two_strides_iff (hs : s ∣ M) (hpos : 0 < s) (hsM : s < M) (hl : l < M) (hx : x < M) :
    x % s = l % s ∧ Mem l ((l + s + s) % M) x ↔ x = l ∨ x = (l + s) % M := by
  have h2 : 2 * s ≤ M := by
    obtain ⟨k, rfl⟩ := hs
    have : k ≠ 0 := fun h => by simp [h] at hl
    have : k ≠ 1 := fun h => by simp [h] at hsM
    calc 2 * s ≤ k * s := Nat.mul_le_mul_right s (by omega)
      _ = s * k := Nat.mul_comm k s
  have hend : l + s + s < M ∧ (l + s + s) % M = l + s + s ∨
      M ≤ l + s + s ∧ (l + s + s) % M = l + s + s - M := by
    rcases Nat.lt_or_ge (l + s + s) M with h | h
    · exact .inl ⟨h, Nat.mod_eq_of_lt h⟩
    · exact .inr ⟨h, by rw [Nat.mod_eq_sub_mod h, Nat.mod_eq_of_lt (by omega)]⟩
  constructor
  · rintro ⟨hp, hm⟩
    by_contra hne
    have hp' : x % s = (l + s) % s := by rw [hp, Nat.add_mod_right]
    have g1 := add_le_of_lt hp
    have g2 := add_le_of_lt hp.symm
    have k1 := add_le_add_modulus hs hp hx
    have k2 := add_le_add_modulus hs hp.symm hl
    have g3 := add_le_of_lt hp'
    have g4 := add_le_of_lt hp'.symm
    have k3 := add_le_add_modulus hs hp' hx
    have k4 : l + s < x + M → l + s + s ≤ x + M := add_le_of_lt (by
      rw [← hp', Nat.add_mod, Nat.mod_eq_zero_of_dvd hs, Nat.add_zero, Nat.mod_mod])
    unfold Mem at hm
    rcases add_mod_cases hl hsM with ⟨_, h⟩ | ⟨_, h⟩ <;> rw [h] at hne <;>
      rcases hend with ⟨_, he⟩ | ⟨_, he⟩ <;> rw [he] at hm <;> omega
  · rintro (rfl | rfl)
    · exact ⟨rfl, mem_left⟩
    · refine ⟨add_mod_phase hs, ?_⟩
      unfold Mem
      rcases add_mod_cases hl hsM with ⟨_, h⟩ | ⟨_, h⟩ <;> rw [h] <;>
        rcases hend with ⟨_, he⟩ | ⟨_, he⟩ <;> rw [he] <;> omega

theorem add_mod_left_cancel {a b : ℕ} (ha : a < M) (hb : b < M) (h : (a + s) % M = (b + s) % M) :
    a = b := by
  have := Nat.ModEq.add_right_cancel' s h
  rwa [Nat.ModEq, Nat.mod_eq_of_lt ha, Nat.mod_eq_of_lt hb] at this

/-- A step between two points of one phase is a multiple of the stride. -/
theorem dvd_of_phase (ht : s ∣ M) (h : (x + c) % M % s = x % s) : s ∣ c := by
  rw [Nat.mod_mod_of_dvd _ ht] at h
  exact (Nat.modEq_zero_iff_dvd).mp (Nat.ModEq.add_left_cancel' x (by rwa [Nat.add_zero]))

section TwoArcs

variable {l2 r2 p q t : ℕ}

/-- The mirrored ends taken as they are, not one stride on, give another arc, unless two strides are
the whole circle. -/
theorem mirror_off {l' r' : ℕ} (hs : s ∣ M) (hpos : 0 < s) (hl : l < M) (hr : r < M) (hl' : l' < M)
    (hr' : r' < M) (hlr : r % s = l % s) (hne : l ≠ r) (h2 : 2 * s ≠ M) (h1 : (l' + l) % M = c)
    (h3 : (r' + r) % M = c) : ∃ x y, x < M ∧ y < M ∧ (x + y) % M = c ∧ x % s = l' % s ∧
      y % s = l % s ∧ ¬(Mem l' r' x ↔ Mem l r y) := by
  have hM : ∀ y, y % M < M := fun y => Nat.mod_lt y (by omega)
  have hsM : s ≤ M := Nat.le_of_dvd (by omega) hs
  have hlr' : r' % s = l' % s := by
    have hsum : (r' + r) % s = (l' + l) % s := by
      rw [← Nat.mod_mod_of_dvd (r' + r) hs, h3, ← h1, Nat.mod_mod_of_dvd _ hs]
    exact (phase_mirror hsum).mpr hlr
  have hne' : l' ≠ r' := by
    rintro rfl
    rw [Nat.add_comm l' l] at h1
    rw [Nat.add_comm l' r] at h3
    exact hne (add_mod_left_cancel hl hr (h1.trans h3.symm))
  by_cases hstep : (l' + s) % M = r'
  · -- the mirrored arc is one point: the point before it mirrors the second point of the arc
    obtain ⟨hm, hph, hend⟩ := mem_last hs hpos hr' hl' hlr'.symm
    refine ⟨(l' + (M - s)) % M, (l + s) % M, hM _, hM _, ?_, hph.trans hlr', add_mod_phase hs, ?_⟩
    · rw [← Nat.add_mod, show l' + (M - s) + (l + s) = l' + l + M by omega, Nat.add_mod_right, h1]
    · have hin : Mem l r ((l + s) % M) := by
        rcases mem_next hs hl hr hl hlr rfl mem_left with h | h
        · exfalso
          have e1 : (l' + l + 2 * s) % M = (l' + l) % M := by
            calc (l' + l + 2 * s) % M = ((l' + s) % M + (l + s) % M) % M := by
                  rw [← Nat.add_mod]
                  congr 1
                  omega
              _ = (l' + l) % M := by rw [hstep, h, h3, h1]
          have e2 : M ∣ 2 * s := Nat.modEq_zero_iff_dvd.mp
            (Nat.ModEq.add_left_cancel' (l' + l) (by rwa [Nat.add_zero]))
          have e3 := Nat.le_of_dvd (by omega) e2
          have hsM' : s ≠ M := by
            rintro rfl
            rw [Nat.mod_eq_of_lt hr, Nat.mod_eq_of_lt hl] at hlr
            exact hne hlr.symm
          obtain ⟨q, hq⟩ := hs
          have hq1 : q ≠ 0 := fun h => by simp [h] at hq; omega
          have hq2 : q ≠ 1 := fun h => by simp [h] at hq; omega
          have : 2 * s ≤ s * q := by
            rw [Nat.mul_comm s]
            exact Nat.mul_le_mul_right s (by omega)
          omega
        · exact h
      have hout : ¬Mem l' r' ((l' + (M - s)) % M) := (mem_swap hne').mp hm
      exact fun hiff => hout (hiff.mpr hin)
  · -- the second point of the mirrored arc mirrors the point before the arc
    obtain ⟨hm, hph, hend⟩ := mem_last hs hpos hr hl hlr.symm
    refine ⟨(l' + s) % M, (l + (M - s)) % M, hM _, hM _, ?_, add_mod_phase hs, hph.trans hlr, ?_⟩
    · rw [← Nat.add_mod, show l' + s + (l + (M - s)) = l' + l + M by omega, Nat.add_mod_right, h1]
    · have hin : Mem l' r' ((l' + s) % M) :=
        (mem_next hs hl' hr' hl' hlr' rfl mem_left).resolve_left hstep
      exact fun hiff => (mem_swap hne).mp hm (hiff.mp hin)

/-- Two separate arcs of stride `t` that are one arc of stride `s`: each is a single point, and the
points are `s` apart. -/
theorem two_arcs_stride (hs : s ∣ M) (ht : t ∣ M) (hst : s < t ∨ s = t ∨ t < s) (hs0 : 0 < s)
    (ht0 : 0 < t) (hl : l < M) (hr : r < M) (hl2 : l2 < M) (hr2 : r2 < M) (hp : p < M) (hq : q < M)
    (hlr : r % t = l % t) (hll : l2 % t = l % t) (hlr2 : r2 % t = l % t) (hpq : q % s = p % s)
    (hcyc : l2 < r ∧ r < l ∧ l < r2 ∨ r < l ∧ l < r2 ∧ r2 < l2 ∨ l < r2 ∧ r2 < l2 ∧ l2 < r ∨
      r2 < l2 ∧ l2 < r ∧ r < l)
    (hset : ∀ x < M, x % s = p % s ∧ Mem p q x ↔ x % t = l % t ∧ (Mem l2 r x ∨ Mem l r2 x)) :
    r = (l2 + t) % M ∧ r2 = (l + t) % M ∧ ((l2 + s) % M = l ∨ (l + s) % M = l2) := by
  have hM : ∀ y, y % M < M := fun y => Nat.mod_lt y (by omega)
  have hne : l ≠ l2 := by omega
  have hnext : ∀ x < M, x % t = l % t ∧ (Mem l2 r x ∨ Mem l r2 x) →
      (x + s) % M = q ∨ (x + s) % M % t = l % t ∧ (Mem l2 r ((x + s) % M) ∨ Mem l r2 ((x + s) % M)) := by
    intro x hx h
    obtain ⟨hph, hm⟩ := (hset x hx).mpr h
    rcases mem_next hs hp hq hx hpq hph hm with he | hm'
    · exact .inl he
    · exact .inr ((hset _ (hM _)).mp ⟨(add_mod_phase hs).trans hph, hm'⟩)
  have hin : l % t = l % t ∧ (Mem l2 r l ∨ Mem l r2 l) := ⟨rfl, .inr mem_left⟩
  have hin2 : l2 % t = l % t ∧ (Mem l2 r l2 ∨ Mem l r2 l2) := ⟨hll, .inl mem_left⟩
  -- the stride from the two starts cannot end the arc twice
  have hone : ¬((l + s) % M = q ∧ (l2 + s) % M = q) := fun h =>
    hne (add_mod_left_cancel hl hl2 (h.1.trans h.2.symm))
  rcases hst with hlt | rfl | hlt
  · have hoff : ∀ x, x % t = l % t → ¬(x + s) % M % t = l % t := by
      intro x hx he
      have := Nat.le_of_dvd hs0 (dvd_of_phase ht (he.trans hx.symm))
      omega
    rcases hnext l hl hin with h1 | ⟨h1, _⟩
    · rcases hnext l2 hl2 hin2 with h2 | ⟨h2, _⟩
      · exact absurd ⟨h1, h2⟩ hone
      · exact absurd h2 (hoff l2 hll)
    · exact absurd h1 (hoff l rfl)
  · -- both ends follow a last point
    have hq1 : r = q := by
      obtain ⟨hm, hph, hend⟩ := mem_last hs hs0 hl2 hr (hlr.trans hll.symm)
      rcases hnext _ (hM _) ⟨hph.trans hll, .inl hm⟩ with h | ⟨_, h⟩
      · rw [← h, hend]
      · rw [hend] at h
        unfold Mem at h
        omega
    have hq2 : r2 = q := by
      obtain ⟨hm, hph, hend⟩ := mem_last hs hs0 hl hr2 hlr2
      rcases hnext _ (hM _) ⟨hph, .inr hm⟩ with h | ⟨_, h⟩
      · rw [← h, hend]
      · rw [hend] at h
        unfold Mem at h
        omega
    omega
  · have hphase : ∀ x < M, x % t = l % t ∧ (Mem l2 r x ∨ Mem l r2 x) → x % s = p % s :=
      fun x hx h => ((hset x hx).mpr h).1
    have hsingle : ∀ x < M, x % t = l % t ∧ (Mem l2 r x ∨ Mem l r2 x) →
        ¬((x + t) % M % t = l % t ∧ (Mem l2 r ((x + t) % M) ∨ Mem l r2 ((x + t) % M))) := by
      intro x hx h h'
      have he := (hphase _ (hM _) h').trans (hphase x hx h).symm
      have := Nat.le_of_dvd ht0 (dvd_of_phase hs he)
      omega
    have hr' : r = (l2 + t) % M := by
      rcases mem_next ht hl2 hr hl2 (hlr.trans hll.symm) rfl mem_left with h | h
      · exact h.symm
      · exact absurd ⟨(add_mod_phase ht).trans hll, .inl h⟩ (hsingle l2 hl2 hin2)
    have hr2' : r2 = (l + t) % M := by
      rcases mem_next ht hl hr2 hl hlr2 rfl mem_left with h | h
      · exact h.symm
      · exact absurd ⟨add_mod_phase ht, .inr h⟩ (hsingle l hl hin)
    have hsM : s < M := by
      refine lt_of_le_of_ne (Nat.le_of_dvd (by omega) hs) ?_
      rintro rfl
      have := (hphase l hl hin).trans (hphase l2 hl2 hin2).symm
      rw [Nat.mod_eq_of_lt hl, Nat.mod_eq_of_lt hl2] at this
      exact hne this
    have hmove : ∀ x < M, (x + s) % M ≠ x := by
      intro x hx he
      rcases add_mod_cases hx hsM with ⟨_, h⟩ | ⟨_, h⟩ <;> omega
    have hpoint : ∀ x < M, x % t = l % t → (Mem l2 r x ∨ Mem l r2 x) → x = l2 ∨ x = l := by
      rintro x hx hph (hm | hm)
      · rw [hr'] at hm
        exact .inl ((mem_stride_iff ht ht0 (by omega) hl2 hx).mp ⟨hph.trans hll.symm, hm⟩)
      · rw [hr2'] at hm
        exact .inr ((mem_stride_iff ht ht0 (by omega) hl hx).mp ⟨hph, hm⟩)
    refine ⟨hr', hr2', ?_⟩
    rcases hnext l2 hl2 hin2 with h2 | ⟨hph, hm⟩
    · rcases hnext l hl hin with h1 | ⟨hph, hm⟩
      · exact absurd ⟨h1, h2⟩ hone
      · rcases hpoint _ (hM _) hph hm with h | h
        · exact .inr h
        · exact absurd h (hmove l hl)
    · rcases hpoint _ (hM _) hph hm with h | h
      · exact absurd h (hmove l2 hl2)
      · exact .inl h

end TwoArcs

/-! The least point of a phase from a bound on. -/

/-- The least number from `b` on with remainder `rem`. -/
def up (t rem b : ℕ) : ℕ := b + (rem + t - b % t) % t

variable {t rem b : ℕ}

theorem le_up : b ≤ up t rem b := Nat.le_add_right _ _

theorem up_lt (ht : 0 < t) : up t rem b < b + t :=
  Nat.add_lt_add_left (Nat.mod_lt _ ht) b

theorem up_mod (h : rem < t) : up t rem b % t = rem := by
  have hb : b % t < t := Nat.mod_lt _ (by omega)
  rw [up, Nat.add_mod_mod, Nat.add_mod,
    show (rem + t - b % t) % t = (rem + (t - b % t)) % t by congr 1; omega, ← Nat.add_mod,
    ← Nat.mod_add_mod b, show b % t + (rem + (t - b % t)) = rem + t by omega, Nat.add_mod_right,
    Nat.mod_eq_of_lt h]

/-- A point of the phase is past a bound if it is past the next point of the phase. -/
theorem up_le_iff (h : rem < t) (hx : x % t = rem) : up t rem b ≤ x ↔ b ≤ x := by
  refine ⟨le_up.trans, fun hb => ?_⟩
  by_contra hlt
  have := add_le_of_lt (hx.trans (up_mod (b := b) h).symm) (by omega)
  have : up t rem b < b + t := up_lt (Nat.zero_lt_of_lt h)
  omega

/-- Past the modulus the least point of the phase starts again. -/
theorem up_mod_modulus (hM : t ∣ M ∨ M ∣ t) (h : rem < t) (hrM : rem < M) (hb : b < M) :
    up t rem b < M ∧ up t rem b % M = up t rem b ∨ M ≤ up t rem b ∧ up t rem b % M = rem := by
  rcases Nat.lt_or_ge (up t rem b) M with hlt | hge
  · exact .inl ⟨hlt, Nat.mod_eq_of_lt hlt⟩
  · refine .inr ⟨hge, ?_⟩
    rcases hM with hd | hd
    · have hp : (M + rem) % t = rem := by
        rw [Nat.add_mod, Nat.mod_eq_zero_of_dvd hd, Nat.zero_add, Nat.mod_mod, Nat.mod_eq_of_lt h]
      have hle := (up_le_iff (b := b) h hp).mpr (by omega)
      rw [Nat.mod_eq_sub_mod hge, Nat.mod_eq_of_lt (by omega)]
      have hp' := up_mod (b := b) h
      by_contra hne
      have := add_le_of_lt (hp'.trans hp.symm) (by omega)
      omega
    · rw [← Nat.mod_mod_of_dvd _ hd, up_mod h, Nat.mod_eq_of_lt hrM]

theorem narrow_phase {a : ℕ} (hM : t ∣ M ∨ M ∣ t) (h : rem < t) (hrM : rem < M) (ha : a % t = rem)
    (hlt : a < M + rem) : a % M % t = rem := by
  rcases hM with hd | hd
  · rw [Nat.mod_mod_of_dvd _ hd, ha]
  · have htM : M ≤ t := Nat.le_of_dvd (by omega) hd
    have hra : rem ≤ a := ha ▸ Nat.mod_le a t
    have g1 := add_le_of_lt ((Nat.mod_eq_of_lt h).trans ha.symm)
    rw [show a = rem by omega, Nat.mod_eq_of_lt hrM, Nat.mod_eq_of_lt h]

/-- An arc inside one turn from `rem` on, cut down to a smaller circle, keeps its points there. -/
theorem mem_narrow {a : ℕ} (hM : t ∣ M ∨ M ∣ t) (h : rem < t) (hrM : rem < M) (ha : a % t = rem)
    (hab : a < b) (hb : b ≤ M + rem) (hbp : b % t = rem ∨ b = M + rem) (hx : x < M)
    (hxp : x % t = rem) : x % t = a % M % t ∧ Mem (a % M) (b % M) x ↔ a ≤ x ∧ x < b := by
  have hrem : rem % t = rem := Nat.mod_eq_of_lt h
  have hra : rem ≤ a := ha ▸ Nat.mod_le a t
  have hrx : rem ≤ x := hxp ▸ Nat.mod_le x t
  rcases hM with hd | hd
  · have hMr : (M + rem) % t = rem := by
      rw [Nat.add_mod, Nat.mod_eq_zero_of_dvd hd, Nat.zero_add, Nat.mod_mod, hrem]
    have hbt : b % t = rem := hbp.elim id fun h => h ▸ hMr
    have htM : t ≤ M := Nat.le_of_dvd (by omega) hd
    have g1 := add_le_of_lt (ha.trans hMr.symm)
    have g2 := add_le_of_lt (hbt.trans hMr.symm)
    have haM : a < M := by omega
    rw [Nat.mod_eq_of_lt haM, ha, hxp]
    simp only [true_and]
    rcases Nat.lt_or_ge b M with hlt | hge
    · rw [Nat.mod_eq_of_lt hlt]
      unfold Mem
      omega
    · have hbe : b = M + rem := by omega
      rw [hbe, Nat.add_mod_left, Nat.mod_eq_of_lt hrM]
      unfold Mem
      omega
  · have htM : M ≤ t := Nat.le_of_dvd (by omega) hd
    have g1 := add_le_of_lt (hrem.trans ha.symm)
    have hae : a = rem := by omega
    have hbe : b = M + rem := by
      rcases hbp with hb' | hb'
      · have g2 := add_le_of_lt (hrem.trans hb'.symm)
        omega
      · exact hb'
    rw [hae, hbe, Nat.mod_eq_of_lt hrM, Nat.add_mod_left, Nat.mod_eq_of_lt hrM, hrem, hxp]
    simp only [mem_full, true_and, true_iff]
    omega

/-- An arc of at most `A` points, all within one window of `A` points, cut down to the circle of
`A` points: `d` turns the window to the start. -/
theorem mem_trunc {A B d : ℕ} (hd : A ∣ B) (hAB : A < B) (hdA : d < B) (hl : l < B) (hr : r < B)
    (hx : x < A) (hin : ∀ e < B, Mem l r e → (e + d) % B < A) :
    Mem (l % A) (r % A) x ↔ ∃ e < B, Mem l r e ∧ e % A = x := by
  have hB : ∀ y, y % B < B := fun y => Nat.mod_lt y (by omega)
  have hA : ∀ y, y % A < A := fun y => Nat.mod_lt y (by omega)
  have hturn : ∀ e < B, (Mem l r e ↔ Mem ((l + d) % B) ((r + d) % B) ((e + d) % B)) :=
    fun e he => (mem_add hl hr he).symm
  -- every point of the turned circle is a turned point
  have hback : ∀ u < B, ((u + (B - d)) % B + d) % B = u := by
    intro u hu
    rw [Nat.mod_add_mod, show u + (B - d) + d = u + B by omega, Nat.add_mod_right,
      Nat.mod_eq_of_lt hu]
  have hin' : ∀ u < B, Mem ((l + d) % B) ((r + d) % B) u → u < A := by
    intro u hu hm
    have := hin _ (hB _) ((hturn _ (hB _)).mpr (by rwa [hback u hu]))
    rwa [hback u hu] at this
  have hL := hin' _ (hB _) mem_left
  have hQB := hB (r + d)
  have hlast := hin' (B - 1) (by omega)
  have hprev := hin' ((r + d) % B - 1) (by omega)
  have hLQ : (l + d) % B < (r + d) % B ∧ (r + d) % B ≤ A := by
    unfold Mem at hlast hprev
    omega
  have hlow : ∀ y, (y % A + d) % A = (y + d) % B % A := by
    intro y
    rw [Nat.mod_mod_of_dvd _ hd, Nat.mod_add_mod]
  have hsmall : Mem (l % A) (r % A) x ↔
      (l + d) % B ≤ (x + d) % A ∧ (x + d) % A < (r + d) % B := by
    rw [← mem_add (c := d) (hA l) (hA r) hx, hlow, hlow, Nat.mod_eq_of_lt hL]
    have := hA (x + d)
    rcases Nat.lt_or_ge ((r + d) % B) A with h | h
    · rw [Nat.mod_eq_of_lt h]
      unfold Mem
      omega
    · rw [show (r + d) % B = A by omega, Nat.mod_self]
      unfold Mem
      omega
  rw [hsmall]
  constructor
  · intro h
    have hw : (x + d) % A < B := by omega
    refine ⟨((x + d) % A + (B - d)) % B, hB _, ?_, ?_⟩
    · rw [hturn _ (hB _), hback _ hw]
      unfold Mem
      omega
    · apply add_mod_left_cancel (hA _) hx (s := d)
      rw [hlow, hback _ hw, Nat.mod_mod]
  · rintro ⟨e, he, hm, rfl⟩
    have hm' := (hturn e he).mp hm
    have hlt := hin e he hm
    rw [hlow, Nat.mod_eq_of_lt hlt]
    unfold Mem at hm'
    omega

section Moved

variable {l r x : ℕ} (hM : t ∣ M ∨ M ∣ t) (h : rem < t) (hrM : rem < M) (hl : l < M) (hr : r < M)

include hM h hrM hl hr

/-- Both bounds moved up to a phase on the same side of the modulus: the arc keeps its points of
the phase, and has none if the bounds change their order. -/
theorem mem_moved (hx : x < M) (hp : x % t = rem) (hw : M ≤ up t rem l ↔ M ≤ up t rem r) :
    ((l < r ↔ up t rem l % M < up t rem r % M) →
      (Mem (up t rem l % M) (up t rem r % M) x ↔ Mem l r x)) ∧
    (¬(l < r ↔ up t rem l % M < up t rem r % M) →
      ¬Mem l r x ∧ up t rem l % M = up t rem r % M) := by
  have hrem : rem ≤ x := hp ▸ Nat.mod_le x t
  have el := up_le_iff (b := l) h hp
  have er := up_le_iff (b := r) h hp
  have ml : l ≤ up t rem l := le_up
  have mr : r ≤ up t rem r := le_up
  have hlr := up_le_iff (b := l) h (up_mod (b := r) h)
  have hrl := up_le_iff (b := r) h (up_mod (b := l) h)
  unfold Mem
  rcases up_mod_modulus hM h hrM hl with ⟨_, ul⟩ | ⟨_, ul⟩ <;>
    rcases up_mod_modulus hM h hrM hr with ⟨_, ur⟩ | ⟨_, ur⟩ <;> rw [ul, ur] <;> omega

/-- One bound moved past the modulus alone: the order changes, unless no point of the phase is left
and the bounds meet. -/
theorem moved_past (hw : ¬(M ≤ up t rem l ↔ M ≤ up t rem r)) :
    (l < r ∨ rem < r → ¬(l < r ↔ up t rem l % M < up t rem r % M)) ∧
    (¬(l < r ∨ rem < r) → up t rem l % M = rem ∧ up t rem r % M = rem ∧
      ∀ x < M, x % t = rem → ¬Mem l r x) := by
  have hrem := Nat.mod_eq_of_lt h
  have ml : l ≤ up t rem l := le_up
  have mr : r ≤ up t rem r := le_up
  have hlr := up_le_iff (b := l) h (up_mod (b := r) h)
  have hrl := up_le_iff (b := r) h (up_mod (b := l) h)
  have her := up_le_iff (b := r) h hrem
  have hel := up_le_iff (b := l) h hrem
  have hlow : ∀ y, rem ≤ up t rem y := fun y => by
    conv_lhs => rw [← up_mod (b := y) h]
    exact Nat.mod_le _ _
  have h1 := hlow l
  have h2 := hlow r
  constructor
  · rcases up_mod_modulus hM h hrM hl with ⟨_, ul⟩ | ⟨_, ul⟩ <;>
      rcases up_mod_modulus hM h hrM hr with ⟨_, ur⟩ | ⟨_, ur⟩ <;> rw [ul, ur] <;> omega
  · intro hno
    refine ⟨?_, ?_, ?_⟩
    · rcases up_mod_modulus hM h hrM hl with ⟨_, ul⟩ | ⟨_, ul⟩
      · omega
      · exact ul
    · rcases up_mod_modulus hM h hrM hr with ⟨_, ur⟩ | ⟨_, ur⟩
      · omega
      · exact ur
    · intro x hx hp
      have hxr : rem ≤ x := hp ▸ Nat.mod_le x t
      have el := up_le_iff (b := l) h hp
      have er := up_le_iff (b := r) h hp
      unfold Mem
      omega

end Moved

end Arc
