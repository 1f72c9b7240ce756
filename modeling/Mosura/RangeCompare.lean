import Mosura.RangeMembers

/-! The comparison that `translate2_op` gives for a range is true on the values of the range. -/

namespace Mosura.CircleRange
open Arc

variable {n size c cslot v a b l r : ℕ} {R : CircleRange} {opc : OpCode}

/-- The comparison with a constant that the range stands for: `(0, opc, c, cslot)` with the constant
`c` in slot `cslot`, or 1 for every value, 2 for no single comparison, 3 for no value. -/
def translate2Op (R : CircleRange) : ℕ × OpCode × ℕ × ℕ :=
  if R.isempty then (3, .copy, 0, 0)
  else if R.step ≠ 1 then (2, .copy, 0, 0) -- not possible with a stride
  else if R.right = (wrappingAdd R.left 1 &&& R.mask) then (0, .intEqual, R.left, 0) -- single value
  else if R.left = (wrappingAdd R.right 1 &&& R.mask) then
    (0, .intNotequal, R.right, 0) -- all but one value
  else if R.left = R.right then (1, .copy, 0, 0) -- all outputs are possible
  else if R.left = 0 then (0, .intLess, R.right, 1)
  else if R.right = 0 then (0, .intLess, wrappingSub R.left 1 &&& R.mask, 0)
  else if R.left = (R.mask >>> 1) + 1 then (0, .intSless, R.right, 1)
  else if R.right = (R.mask >>> 1) + 1 then (0, .intSless, wrappingSub R.left 1 &&& R.mask, 0)
  else (2, .copy, 0, 0) -- cannot represent

/-- The comparison of `v` with the constant `c` in slot `cslot` is true. -/
def Compares (opc : OpCode) (size c cslot v : ℕ) : Prop :=
  (if cslot = 0 then evalBinary opc size size 1 c v else evalBinary opc size size 1 v c) = some 1

/-- The (in)equalities and less-than comparisons. -/
def comparisons : List OpCode := [.intEqual, .intNotequal, .intLess, .intSless]

/-- A stride on a single value, which no other value shows. -/
def Degenerate (R : CircleRange) : Prop := R.step ≠ 1 ∧ R.isSingle = true

/-- What an answer of `translate2_op` says. -/
def Faithful (size : ℕ) (R : CircleRange) : ℕ × OpCode × ℕ × ℕ → Prop
  | (restype, opc, c, cslot) =>
    (restype = 0 → opc ∈ comparisons ∧ c < 2 ^ (8 * size) ∧
      ∀ v < 2 ^ (8 * size), Compares opc size c cslot v ↔ R.containsVal v = true) ∧
    (restype = 1 → ∀ v < 2 ^ (8 * size), R.containsVal v = true) ∧
    (restype = 2 → ∀ opc ∈ comparisons, ∀ c < 2 ^ (8 * size), ∀ cslot ≤ 1,
      ¬∀ v < 2 ^ (8 * size), Compares opc size c cslot v ↔ R.containsVal v = true) ∧
    (restype = 3 → ∀ v < 2 ^ (8 * size), R.containsVal v = false) ∧ restype ≤ 3

/-- The arc of the values that a comparison is true on; with equal ends there are none. -/
def arcOf (n : ℕ) (opc : OpCode) (c cslot : ℕ) : ℕ × ℕ :=
  let next := (c + 1) % 2 ^ n
  match opc with
  | .intEqual => (c, next)
  | .intNotequal => (next, c)
  | .intLess => if cslot = 0 then (next, 0) else (0, c)
  | _ => if cslot = 0 then (next, 2 ^ (n - 1)) else (2 ^ (n - 1), c)

/-- A comparison is true on its arc. -/
theorem compares_iff (h0 : 0 < size) (ho : opc ∈ comparisons) (hc : c < 2 ^ (8 * size))
    (hv : v < 2 ^ (8 * size)) : Compares opc size c cslot v ↔
      (arcOf (8 * size) opc c cslot).1 ≠ (arcOf (8 * size) opc c cslot).2 ∧
        Mem (arcOf (8 * size) opc c cslot).1 (arcOf (8 * size) opc c cslot).2 v := by
  have hM : 1 < 2 ^ (8 * size) := Nat.one_lt_two_pow (by omega)
  have hhalf := Signed.two_pow_half (show 0 < 8 * size by omega)
  have hnext : c + 1 < 2 ^ (8 * size) ∧ (c + 1) % 2 ^ (8 * size) = c + 1 ∨
      c + 1 = 2 ^ (8 * size) ∧ (c + 1) % 2 ^ (8 * size) = 0 := by
    rcases (show c + 1 ≤ 2 ^ (8 * size) from hc).lt_or_eq with h | h
    · exact .inl ⟨h, Nat.mod_eq_of_lt h⟩
    · exact .inr ⟨h, by rw [h, Nat.mod_self]⟩
  simp only [comparisons, List.mem_cons, List.not_mem_nil, or_false] at ho
  unfold Compares Mem
  by_cases hs : cslot = 0
  · simp only [hs, if_true]
    rcases ho with rfl | rfl | rfl | rfl <;> simp only [arcOf, evalBinary, Signed.slt_ofNat hc hv,
      if_true, Option.some.injEq, Bool.toNat_eq_one]
    · rw [beq_iff_eq]
      omega
    · rw [bne_iff_ne]
      omega
    · rw [decide_eq_true_eq]
      omega
    · rw [decide_eq_true_eq]
      unfold Signed.toInt
      split_ifs <;> omega
  · simp only [hs, if_false]
    rcases ho with rfl | rfl | rfl | rfl <;> simp only [arcOf, evalBinary, Signed.slt_ofNat hv hc,
      if_neg hs, Option.some.injEq, Bool.toNat_eq_one]
    · rw [beq_iff_eq]
      omega
    · rw [bne_iff_ne]
      omega
    · rw [decide_eq_true_eq]
      omega
    · rw [decide_eq_true_eq]
      unfold Signed.toInt
      split_ifs <;> omega

/-- A proper arc of the values of another has its ends. -/
theorem arc_unique {l2 r2 M : ℕ} (hl : l < M) (hl2 : l2 < M) (hr2 : r2 < M) (hr : r < M)
    (h2 : l2 ≠ r2) (he : ∀ v < M, Mem l r v ↔ Mem l2 r2 v) : l = l2 ∧ r = r2 := by
  obtain ⟨m, rfl⟩ : ∃ m, M = m + 1 := ⟨M - 1, by omega⟩
  -- the point before the start of an arc is not on it, nor is its end
  have hl : l = l2 := by
    have e := he l2 hl2
    rcases Nat.eq_zero_or_pos l2 with h0 | h0
    · have p := he m (by omega)
      unfold Mem at e p
      omega
    · have p := he (l2 - 1) (by omega)
      unfold Mem at e p
      omega
  subst hl
  have e := he r2 hr2
  rcases Nat.eq_zero_or_pos r2 with h0 | h0
  · have p := he m (by omega)
    unfold Mem at e p
    omega
  · have p := he (r2 - 1) (by omega)
    unfold Mem at e p
    omega

variable (cslot opc) in
theorem arcOf_lt (h0 : 0 < n) (hc : c < 2 ^ n) :
    (arcOf n opc c cslot).1 < 2 ^ n ∧ (arcOf n opc c cslot).2 < 2 ^ n := by
  have hpos := Nat.two_pow_pos n
  have hnext : (c + 1) % 2 ^ n < 2 ^ n := Nat.mod_lt _ hpos
  have hhalf : 2 ^ (n - 1) < 2 ^ n := Nat.pow_lt_pow_right (by norm_num) (by omega)
  by_cases hs : cslot = 0 <;> simp only [arcOf, hs, if_true, if_false] <;> split <;>
    exact ⟨by assumption, by assumption⟩

section Unit

variable (h0 : 0 < size) (hR : R.WellFormed (8 * size)) (he : R.isempty = false) (hs : R.step = 1)
include hR he hs

theorem containsVal_arc : R.containsVal v = true ↔ Mem R.left R.right v := by
  have hU : R.stepU = 1 := by
    have := hR.step_eq
    omega
  rw [hR.containsVal_iff, hU, Nat.mod_one, Nat.mod_one]
  simp only [he, true_and]

include h0

/-- A comparison on the arc of a range stands for the range. -/
theorem faithful_of_arc (ho : opc ∈ comparisons) (hc : c < 2 ^ (8 * size)) (hne : R.left ≠ R.right)
    (harc : arcOf (8 * size) opc c cslot = (R.left, R.right)) :
    Faithful size R (0, opc, c, cslot) := by
  refine ⟨fun _ => ⟨ho, hc, fun v hv => ?_⟩, nofun, nofun, nofun, Nat.zero_le 3⟩
  rw [compares_iff h0 ho hc hv, harc, containsVal_arc hR he hs]
  exact and_iff_right hne

/-- Without a comparison on its arc a range stands for none. -/
theorem not_compares (hne : R.left ≠ R.right) (ho : opc ∈ comparisons) (hc : c < 2 ^ (8 * size))
    (harc : arcOf (8 * size) opc c cslot ≠ (R.left, R.right)) :
    ¬∀ v < 2 ^ (8 * size), Compares opc size c cslot v ↔ R.containsVal v = true := by
  intro h
  obtain ⟨ha, hb⟩ := arcOf_lt cslot opc (show 0 < 8 * size by omega) hc
  have hmem : ∀ v < 2 ^ (8 * size), (arcOf (8 * size) opc c cslot).1 ≠
      (arcOf (8 * size) opc c cslot).2 ∧
      Mem (arcOf (8 * size) opc c cslot).1 (arcOf (8 * size) opc c cslot).2 v ↔
      Mem R.left R.right v := by
    intro v hv
    rw [← compares_iff h0 ho hc hv, h v hv, containsVal_arc hR he hs]
  have hproper := ((hmem R.left hR.left_lt).mpr mem_left).1
  obtain ⟨hl, hr⟩ := arc_unique ha hR.left_lt hR.right_lt hb hne fun v hv =>
    (and_iff_right hproper).symm.trans (hmem v hv)
  exact harc (Prod.ext hl hr)

end Unit

/-- A stride on two values or more is no comparison. -/
theorem not_compares_strided (h0 : 0 < size) (hR : R.WellFormed (8 * size))
    (he : R.isempty = false) (hs : R.step ≠ 1) (hsingle : R.isSingle = false) (h8 : size ≤ 8)
    (ho : opc ∈ comparisons) (hc : c < 2 ^ (8 * size)) :
    ¬∀ v < 2 ^ (8 * size), Compares opc size c cslot v ↔ R.containsVal v = true := by
  intro h
  have hM : 1 < 2 ^ (8 * size) := Nat.one_lt_two_pow (by omega)
  obtain ⟨ha, hb⟩ := arcOf_lt cslot opc (show 0 < 8 * size by omega) hc
  have hstep : 1 < R.stepU := by
    have := hR.step_eq
    have := hR.stepU_pos
    omega
  have hmem : ∀ v < 2 ^ (8 * size), R.containsVal v = true ↔
      v % R.stepU = R.left % R.stepU ∧ Mem R.left R.right v := fun v _ =>
    hR.containsVal_iff.trans (and_iff_right he)
  have hcmp := fun v hv => (compares_iff h0 ho hc hv).symm.trans (h v hv)
  generalize arcOf (8 * size) opc c cslot = arc at ha hb hcmp
  have hleft := hR.left_lt
  have hin := (hmem R.left hleft).mpr ⟨rfl, mem_left⟩
  have hproper := ((hcmp R.left hleft).mpr hin).1
  -- the stride goes round the domain more than once, so one stride up there is a second value
  have hdvd : R.stepU ∣ 2 ^ (8 * size) := by
    refine hR.stepU_dvd_or.resolve_right fun hd => ?_
    have hle := Nat.le_of_dvd hR.stepU_pos hd
    have hsame : R.right = R.left := by
      have := hR.phase
      rwa [Nat.mod_eq_of_lt (hR.right_lt.trans_le hle), Nat.mod_eq_of_lt (hleft.trans_le hle)] at this
    rw [isSingle, hR.mask, wrappingAdd_and (by omega), he, hsame, Nat.add_mod,
      Nat.mod_eq_zero_of_dvd hd, Nat.add_zero, Nat.mod_mod, Nat.mod_eq_of_lt hleft] at hsingle
    simp at hsingle
  have hnot : R.right ≠ (R.left + R.stepU) % 2 ^ (8 * size) := by
    intro hr
    have := (hR.isSingle_iff (by omega)).mpr ⟨he, hr⟩
    rw [hsingle] at this
    cases this
  have hsecond := (mem_next hdvd hleft hR.right_lt hleft hR.phase rfl mem_left).resolve_left
    (Ne.symm hnot)
  have hlt2 : (R.left + R.stepU) % 2 ^ (8 * size) < 2 ^ (8 * size) := Nat.mod_lt _ (by omega)
  have hin2 := (hmem _ hlt2).mpr ⟨add_mod_phase hdvd, hsecond⟩
  -- the arc is not its start alone, so it holds two neighbours, of different phases
  have hstart := (hmem _ ha).mp ((hcmp _ ha).mp ⟨hproper, mem_left⟩)
  have hnext : (arc.1 + 1) % 2 ^ (8 * size) < 2 ^ (8 * size) := Nat.mod_lt _ (by omega)
  rcases mem_next (one_dvd _) ha hb ha (by rw [Nat.mod_one, Nat.mod_one]) rfl mem_left with hone | htwo
  · have honly : ∀ v < 2 ^ (8 * size), R.containsVal v = true → v = arc.1 := by
      intro v hv hc
      rw [← mem_single hM ha hv, hone]
      exact ((hcmp v hv).mpr hc).2
    have hsame := (honly _ hleft hin).trans (honly _ hlt2 hin2).symm
    have hd : R.stepU < 2 ^ (8 * size) := by
      refine lt_of_le_of_ne (Nat.le_of_dvd (by omega) hdvd) fun heq => hnot ?_
      have := hR.phase
      rw [heq, Nat.add_mod_right, Nat.mod_eq_of_lt hleft]
      rwa [heq, Nat.mod_eq_of_lt hR.right_lt, Nat.mod_eq_of_lt hleft] at this
    rcases add_mod_cases hleft hd with ⟨_, h⟩ | ⟨_, h⟩ <;> omega
  · have hphase := ((hmem _ hnext).mp ((hcmp _ hnext).mp ⟨hproper, htwo⟩)).1
    rw [← hstart.1] at hphase
    have := Nat.le_of_dvd one_pos (dvd_of_phase hdvd hphase)
    omega

/-- The answer for a range of unit step. -/
theorem faithful_unit (h0 : 0 < size) (h8 : size ≤ 8) (hR : R.WellFormed (8 * size))
    (he : R.isempty = false) (hs : R.step = 1) : Faithful size R R.translate2Op := by
  have hn : 8 * size ≤ 64 := by omega
  have hhalf := Signed.two_pow_half (show 0 < 8 * size by omega)
  have hl := hR.left_lt
  have hr := hR.right_lt
  have hM : 1 < 2 ^ (8 * size) := Nat.one_lt_two_pow (by omega)
  have hmid : R.mask >>> 1 + 1 = 2 ^ (8 * size - 1) := by
    rw [hR.mask, Nat.shiftRight_one]
    omega
  -- the constant one below the left boundary
  have hpred : (wrappingSub R.left 1 &&& R.mask) < 2 ^ (8 * size) ∧
      ((wrappingSub R.left 1 &&& R.mask) + 1) % 2 ^ (8 * size) = R.left := by
    refine ⟨and_mask_lt hR.mask _, ?_⟩
    rw [hR.mask, wrappingSub_and hn, Nat.mod_add_mod,
      show R.left + (2 ^ 64 - 1) + 1 = R.left + 2 ^ 64 by omega, add_word_mod hn, Nat.mod_eq_of_lt hl]
  rw [translate2Op, if_neg (by simp [he]), if_neg (not_not.mpr hs)]
  simp only [hmid]
  rw [hR.mask, wrappingAdd_and hn, wrappingAdd_and hn, ← hR.mask]
  have hnext : ∀ x < 2 ^ (8 * size), (x + 1) % 2 ^ (8 * size) ≠ x := by
    intro x hx
    rcases add_mod_cases hx hM with ⟨_, h⟩ | ⟨_, h⟩ <;> omega
  have hof := fun opc ho c hc hne cslot harc =>
    @faithful_of_arc size c cslot R opc h0 hR he hs ho hc hne harc
  split_ifs with h1 h2 h3 h4 h5 h6 h7
  · exact hof .intEqual (by decide) R.left hl (fun h => hnext _ hl (h1.symm.trans h.symm)) 0
      (Prod.ext rfl h1.symm)
  · exact hof .intNotequal (by decide) R.right hr (fun h => hnext _ hr (h2.symm.trans h)) 0
      (Prod.ext h2.symm rfl)
  · refine ⟨nofun, fun _ v _ => ?_, nofun, nofun, by decide⟩
    rw [containsVal_arc hR he hs, h3]
    exact mem_full
  · exact hof .intLess (by decide) R.right hr h3 1 (Prod.ext h4.symm rfl)
  · exact hof .intLess (by decide) _ hpred.1 h3 0 (Prod.ext hpred.2 h5.symm)
  · exact hof .intSless (by decide) R.right hr h3 1 (Prod.ext h6.symm rfl)
  · exact hof .intSless (by decide) _ hpred.1 h3 0 (Prod.ext hpred.2 h7.symm)
  · refine ⟨nofun, nofun, fun _ opc ho c hc cslot hcs => ?_, nofun, by decide⟩
    refine not_compares h0 hR he hs h3 ho hc fun harc => ?_
    obtain ⟨ha, hb⟩ := Prod.ext_iff.mp harc
    simp only [comparisons, List.mem_cons, List.not_mem_nil, or_false] at ho
    by_cases hslot : cslot = 0 <;> rcases ho with rfl | rfl | rfl | rfl <;>
      simp only [arcOf, hslot, if_true, if_false] at ha hb
    case pos.inl | neg.inl => exact h1 (by rw [← hb, ha])
    case pos.inr.inl | neg.inr.inl => exact h2 (by rw [← ha, hb])
    case pos.inr.inr.inl => exact h5 hb.symm
    case pos.inr.inr.inr => exact h7 hb.symm
    case neg.inr.inr.inl => exact h4 ha.symm
    case neg.inr.inr.inr => exact h6 ha.symm

/-- The comparison given for a range is true on the values of the range and on no others; 1 and 3
stand for all and for no values, and 2 for a range that no comparison gives, unless it is a single
value with a stride. -/
theorem translate2Op_faithful (h0 : 0 < size) (h8 : size ≤ 8) (hR : R.WellFormed (8 * size))
    (hd : ¬R.Degenerate) : Faithful size R R.translate2Op := by
  cases he : R.isempty with
  | true =>
    rw [translate2Op, if_pos he]
    exact ⟨nofun, nofun, nofun, fun _ v _ => containsVal_of_isempty he, le_rfl⟩
  | false =>
    by_cases hs : R.step = 1
    · exact faithful_unit h0 h8 hR he hs
    · have hsingle : R.isSingle = false := by
        rw [← Bool.not_eq_true]
        exact fun h => hd ⟨hs, h⟩
      rw [translate2Op, if_neg (by simp [he]), if_pos hs]
      exact ⟨nofun, nofun,
        fun _ _ ho _ hc _ _ => not_compares_strided h0 hR he hs hsingle h8 ho hc, nofun, by decide⟩

/-- The negative bytes are those below 0. -/
theorem translate2Op_faithful_negative :
    Faithful 1 { left := 128, right := 0, mask := 255, isempty := false, step := 1 }
      (translate2Op { left := 128, right := 0, mask := 255, isempty := false, step := 1 }) :=
  translate2Op_faithful (by decide) (by decide)
    ⟨rfl, by decide, by decide, ⟨0, by norm_num, rfl⟩, by decide⟩ (fun h => h.1 rfl)

end Mosura.CircleRange
